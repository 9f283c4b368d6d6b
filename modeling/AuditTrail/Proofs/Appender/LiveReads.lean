import AuditTrail.Proofs.Appender.MemoryChain
import AuditTrail.Proofs.Chain.Verdict

/-!
# Verifying while appending

A verification reads a store twice: the entries of a range, and the entry before the first one of them. An appender may
go on between the two. A commit only adds a row behind all the others, so what comes before an entry that was found does
not change, and the verification finds the range intact as it was at the first read (`Live.verify_finds_intact`).
-/

namespace AuditTrail

namespace Ordered

private theorem earlier_append {es new : List Entry} (h : Chain.IsIncreasing (es ++ new)) {e : Entry} (he : e ∈ es) :
    earlier e.createdAt (es ++ new) = earlier e.createdAt es := by
  have hlater : ∀ f ∈ new, e.createdAt.moment < f.createdAt.moment := (List.pairwise_append.mp h).2.2 e he
  have hnone : earlier e.createdAt new = [] := by
    refine List.filter_eq_nil_iff.mpr fun f hf => ?_
    have := hlater f hf
    simp only [decide_eq_true_eq]
    omega
  rw [earlier, List.filter_append]
  exact (congrArg (earlier e.createdAt es ++ ·) hnone).trans (List.append_nil _)

end Ordered

namespace Memory

private theorem reading_cases {α : Type} (read : List Entry → Except Fault α) {m : Memory}
    (ha : ∀ e ∈ m.entries, e.createdAt.isAware = true) (hs : Ordered.IsSorted m.entries) :
    (m.failures ≠ [] ∧ ∃ f w, reading read m = (.error f, w)) ∨ reading read m = (read m.entries, m) := by
  rw [reading]
  cases m.failures with
  | cons f later => exact .inl ⟨List.cons_ne_nil f later, f, _, rfl⟩
  | nil =>
    rw [Ordered.sort_of_isSorted ha hs]
    exact .inr rfl

end Memory

namespace Verifier

variable {W : Type} {store : Store W} {w : W} {start finish : Instant} {limit : Option Int} {found : Option Report}

private theorem notices_of_intact (h : ∀ r, (examine store start finish w).1 = .ok (some r) → r.isIntact = true)
    (watch : Watch) :
    (verify store limit start finish w watch).2.2.notices = watch.notices := by
  rw [verify]
  split
  · rfl
  · generalize examine store start finish w = examined at h
    obtain ⟨found, world⟩ := examined
    cases found with
    | error f => rfl
    | ok report? =>
      cases report? with
      | none => rfl
      | some r =>
        dsimp only
        rw [conclude, if_pos (h r rfl)]
        split <;> rfl

private theorem verify_of_intact {u v : Instant} (hs : start.isAware = true) (hf : finish.isAware = true)
    (hu : start.toUtc = .ok u) (hv : finish.toUtc = .ok v) (hc : checkRange limit start finish = .ok ())
    (he : (examine store start finish w).1 = .ok found) (watch : Watch) :
    (verify store limit start finish w watch).1 = .ok (found.getD (.intact 0)) := by
  rw [verify, hc]
  generalize examine store start finish w = examined at he
  obtain ⟨result, world⟩ := examined
  obtain rfl : result = .ok found := he
  cases found with
  | none => rfl
  | some r => exact conclude_fst (Stamp.write_of_toUtc hs hu) (Stamp.write_of_toUtc hf hv) _

private theorem reads_of_examine (h : (examine store start finish w).1 = .ok found) :
    ∃ es w', store.findBetween start finish w = (.ok es, w') ∧
      ∀ e ∈ es.head?, ∃ before, (store.findJustBefore e.createdAt w').1 = .ok before := by
  rw [examine] at h
  cases hr : store.findBetween start finish w with
  | mk range w' =>
    rw [hr] at h
    cases range with
    | error f => exact absurd h (by simp)
    | ok es =>
      refine ⟨es, w', rfl, ?_⟩
      intro e he
      cases es with
      | nil => exact absurd he (by simp)
      | cons f rest =>
        obtain rfl : f = e := Option.some.inj he
        dsimp only at h
        cases hb : store.findJustBefore f.createdAt w' with
        | mk before world =>
          cases before with
          | error g =>
            rw [hb] at h
            exact absurd h (by simp)
          | ok b => exact ⟨b, rfl⟩

end Verifier

/-- A session that goes on while others read its store: before each of their calls the next moves happen. -/
structure Live where
  session : Session Memory
  pauses : List (List (Move (List Fault)))

namespace Live

def world (l : Live) : Memory := l.session.scene.world

def rows (l : Live) : List Entry := l.world.entries

/-- What the next call finds: the moves before it have happened. -/
def next (l : Live) : Live :=
  match l.pauses with
  | [] => l
  | moves :: later => ⟨Session.run Memory.store Memory.strike moves l.session, later⟩

def withWorld (m : Memory) (l : Live) : Live :=
  { l with session := { l.session with scene := { l.session.scene with world := m } } }

def store : Store Live := Memory.store.within (fun l => l.next.world) fun m l => l.next.withWorld m

variable {l : Live} {es : List Entry} {start finish : Instant}

private theorem extends_next (h : Session.Extends es l.session) : Session.Extends es l.next.session := by
  rw [next]
  cases l.pauses with
  | nil => exact h
  | cons moves later => exact Session.extends_run moves h

private theorem continues_next (h : Session.Extends es l.session) :
    Appender.Continues l.next.session.appender l.next.rows ∧ es <+: l.next.rows := extends_next h

/-- The first read finds the entries of the range among the rows at that moment, unless there is an outage. -/
private theorem findBetween_cases (h : Session.Extends es l.session) (hs : start.isAware = true)
    (hf : finish.isAware = true) :
    (l.next.world.failures ≠ [] ∧ ∃ f, (store.findBetween start finish l).1 = .error f) ∨
      store.findBetween start finish l = (.ok (Ordered.inRange start finish l.next.rows), l.next) := by
  have hin := (continues_next h).1
  have ha := Chain.isAware_of_linked hin.linked
  have he : store.findBetween start finish l =
      let out := Memory.reading (Ordered.between start finish) l.next.world
      (out.1, l.next.withWorld out.2) := rfl
  rw [he]
  rcases Memory.reading_cases (Ordered.between start finish) ha hin.increasing.isSorted with ⟨hne, f, w, hr⟩ | hr
  · exact .inl ⟨hne, f, by rw [hr]⟩
  · right
    rw [hr, show l.next.world.entries = l.next.rows from rfl, Ordered.between_of_aware hs hf ha]
    rfl

/-- The second read finds the latest of the rows before an entry, unless there is an outage. Those rows are the same
as at the first read. -/
private theorem findJustBefore_cases (h : Session.Extends l.rows l.session) {e : Entry} (he : e ∈ l.rows) :
    (l.next.world.failures ≠ [] ∧ ∃ f, (store.findJustBefore e.createdAt l).1 = .error f) ∨
      (store.findJustBefore e.createdAt l).1 = .ok (Ordered.earlier e.createdAt l.rows).getLast? := by
  obtain ⟨hin, new, hnew⟩ := continues_next h
  have ha := Chain.isAware_of_linked hin.linked
  have hm : e.createdAt.isAware = true := ha e (hnew ▸ List.mem_append_left new he)
  have hq : (store.findJustBefore e.createdAt l).1 =
      (Memory.reading (Ordered.justBefore e.createdAt) l.next.world).1 := rfl
  rw [hq]
  rcases Memory.reading_cases (Ordered.justBefore e.createdAt) ha hin.increasing.isSorted with ⟨hne, f, w, hr⟩ | hr
  · exact .inl ⟨hne, f, by rw [hr]⟩
  · right
    rw [hr, show l.next.world.entries = l.next.rows from rfl, Ordered.justBefore_of_aware hm ha, ← hnew,
      Ordered.earlier_append (hnew.symm ▸ hin.increasing) he]

/-- Whatever happens between the reads, what is examined is intact. -/
private theorem examine_eq (h : Session.Extends [] l.session) (hs : start.isAware = true) (hf : finish.isAware = true)
    {range : List Entry} (hr : (store.findBetween start finish l).1 = .ok range)
    (hb : ∀ e ∈ range.head?, ∃ before,
      (store.findJustBefore e.createdAt (store.findBetween start finish l).2).1 = .ok before) :
    ∃ found, (Verifier.examine store start finish l).1 = .ok found ∧
      found.getD (.intact 0) = .intact (Ordered.inRange start finish l.next.rows).length := by
  have hin := (continues_next h).1
  have hsorted := hin.increasing.isSorted
  have hn : Session.Extends l.next.rows l.next.session := ⟨hin, List.prefix_rfl⟩
  have hread : store.findBetween start finish l = (.ok (Ordered.inRange start finish l.next.rows), l.next) := by
    refine (findBetween_cases h hs hf).resolve_left ?_
    rintro ⟨-, f, hfail⟩
    exact absurd (hr.symm.trans hfail) (by simp)
  obtain rfl : range = Ordered.inRange start finish l.next.rows := Except.ok.inj (hr.symm.trans (congrArg Prod.fst hread))
  rw [hread] at hb
  -- The range is linked behind what was before it at the first read.
  obtain ⟨hfront, hrange⟩ := Chain.linked_inRange hin.linked hsorted start finish
  obtain ⟨t, ht⟩ := Chain.exists_tip_eq_text hfront
  rw [ht] at hrange
  rw [Chain.tip_genesis] at ht
  cases hc : Ordered.inRange start finish l.next.rows with
  | nil =>
    rw [hc] at hread
    exact ⟨none, congrArg Prod.fst (Verifier.examine_of_empty hread), rfl⟩
  | cons e rest =>
    rw [hc] at hread hb
    obtain ⟨before, hbefore⟩ := hb e rfl
    have he : e ∈ l.next.rows := (Ordered.mem_inRange.mp (hc ▸ List.mem_cons_self)).1
    have hsame : Chain.expectedAfter before = .text t := by
      rcases findJustBefore_cases hn he with ⟨-, f, hfail⟩ | hfound
      · exact absurd (hbefore.symm.trans hfail) (by simp)
      · rw [Except.ok.inj (hbefore.symm.trans hfound), Ordered.earlier_of_inRange hsorted hc]
        exact ht
    have hwalk : Chain.walk 1 (.text t) (e :: rest) = .ok (.intact (1 - 1 + (e :: rest).length)) :=
      Chain.walk_of_linked (hc ▸ hrange) 1 (Nat.le_refl 1)
    refine ⟨some (.intact (e :: rest).length), ?_, rfl⟩
    rw [Verifier.examine_of_reads hread hbefore, hsame, hwalk, Nat.sub_self, Nat.zero_add]
    rfl

/-- Appenders that go on while a chain is verified raise no false alarm. Whatever moves happen before each of the two
reads, no notice is sent, and if the reads do not fail, the range is found intact with the entries that were in it at
the moment of the first read. -/
theorem verify_finds_intact (ids : IdSource) (clock : Clock) (watch : Watch) (moves : List (Move (List Fault)))
    (pauses : List (List (Move (List Fault)))) {start finish u v : Instant} (hs : start.isAware = true)
    (hf : finish.isAware = true) (hu : start.toUtc = .ok u) (hv : finish.toUtc = .ok v) (limit : Option Int)
    (w : Watch) :
    let live : Live := ⟨Session.inMemory ids clock watch moves, pauses⟩
    let range := Ordered.inRange start finish live.next.rows
    let first := store.findBetween start finish live
    let out := Verifier.verify store limit start finish live w
    out.2.2.notices = w.notices ∧
      (start.moment ≤ finish.moment → (∀ most ∈ limit, finish.moment - start.moment ≤ most) →
        (∃ es, first.1 = .ok es) →
        (∀ e ∈ range.head?, ∃ before, (store.findJustBefore e.createdAt first.2).1 = .ok before) →
        out.1 = .ok (.intact range.length)) := by
  intro live range first out
  have h : Session.Extends [] live.session := Session.extends_run moves (Session.extends_fresh ids clock watch)
  have hrange : ∀ {es}, first.1 = .ok es → es = range := by
    intro es hes
    rcases findBetween_cases h hs hf with ⟨-, f, hfail⟩ | hread
    · exact absurd (hes.symm.trans hfail) (by simp)
    · exact Except.ok.inj (hes.symm.trans (congrArg Prod.fst hread))
  refine ⟨Verifier.notices_of_intact (fun r hr => ?_) w, ?_⟩
  · obtain ⟨es, l, hread, hbefore⟩ := Verifier.reads_of_examine hr
    obtain ⟨found, he, hi⟩ := examine_eq h hs hf (congrArg Prod.fst hread) (by rwa [hread])
    obtain rfl : found = some r := Except.ok.inj (he.symm.trans hr)
    rw [show r = .intact range.length from hi]
    rfl
  · rintro hle hfit ⟨es, hes⟩ hbefore
    obtain rfl := hrange hes
    obtain ⟨found, he, hi⟩ := examine_eq h hs hf hes hbefore
    exact hi ▸ Verifier.verify_of_intact hs hf hu hv (Verifier.checkRange_of_fits hs hf hle hfit) he w

/-- One row is there at the first read, and a second appender has a request at its writer. Before the second read that
request is committed, another one fails in an outage and a third one is committed, all while the clock stands still:
one entry is checked, although there are three rows at the end. -/
theorem verify_finds_intact_amid_commits :
    let t : Instant := ⟨63900000000000000, some 0, by decide⟩
    let finish : Instant := ⟨63900000000500000, some 0, by decide⟩
    let r : Request := ⟨.text (lit "login|ok"), .text (lit "auth"), .map [(.text (lit "n"), .int 1)], .null⟩
    let pauses : List (List (Move (List Fault))) := [[.replace none, .submit r, .work 1],
      [.work 1, .outage [.outage (lit "disk")], .submit r, .work 2, .submit r, .work 2]]
    let live : Live := ⟨Session.inMemory (.ofNumbers []) (.scripted (.ok t) []) default [.submit r, .work 2], pauses⟩
    let watch := Watch.ofEmitter (.ofListeners [.recorder]) false
    live.next.next.rows.length = 3 ∧
      (Verifier.verify store (some 500000) t finish live watch).1 = .ok (.intact 1) ∧
      (Verifier.verify store (some 500000) t finish live watch).2.2.notices = [] := by
  intro t finish r pauses live watch
  have hu : t.toUtc = .ok t := Instant.ofWall_eq_ok_iff.mpr ⟨rfl, rfl⟩
  have hv : finish.toUtc = .ok finish := Instant.ofWall_eq_ok_iff.mpr ⟨rfl, rfl⟩
  have hfit : ∀ most ∈ some (500000 : Int), finish.moment - t.moment ≤ most := by
    intro most hm
    rw [← Option.some.inj hm]
    decide
  have hd : live.next.next.rows.length = 3 ∧ (Ordered.inRange t finish live.next.rows).length = 1 := by
    decide +kernel
  have hcalm : live.next.world.failures = [] ∧ live.next.next.world.failures = [] := by
    decide +kernel
  have hs : t.isAware = true := rfl
  have hf : finish.isAware = true := rfl
  have h : Session.Extends [] live.session := Session.extends_run _ (Session.extends_fresh _ _ _)
  have hread := (findBetween_cases h hs hf).resolve_left fun hn => hn.1 hcalm.1
  have hfirst : ∃ es, (store.findBetween t finish live).1 = .ok es := ⟨_, congrArg Prod.fst hread⟩
  have hsecond : ∀ e ∈ (Ordered.inRange t finish live.next.rows).head?,
      ∃ before, (store.findJustBefore e.createdAt (store.findBetween t finish live).2).1 = .ok before := by
    intro e he
    have hm : e ∈ live.next.rows := (Ordered.mem_inRange.mp (List.mem_of_head? he)).1
    have hn : Session.Extends live.next.rows live.next.session := ⟨(extends_next h).1, List.prefix_rfl⟩
    rw [hread]
    exact ⟨_, (findJustBefore_cases hn hm).resolve_left fun hn => hn.1 hcalm.2⟩
  have hverify := verify_finds_intact (.ofNumbers []) (.scripted (.ok t) []) default [.submit r, .work 2] pauses hs hf hu
    hv (some 500000) watch
  have hreport : ∀ n, (Ordered.inRange t finish live.next.rows).length = n →
      (Verifier.verify store (some 500000) t finish live watch).1 = .ok (.intact n) := by
    rintro _ rfl
    exact hverify.2 (by decide) hfit hfirst hsecond
  refine ⟨hd.1, hreport 1 hd.2, ?_⟩
  dsimp only [live]
  exact hverify.1

end Live

end AuditTrail
