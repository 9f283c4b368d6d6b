import AuditTrail.Proofs.Appender.Almanacs
import AuditTrail.Proofs.Storage.SharedBucket

/-!
# Commits at whole milliseconds

A stamp has three places after the second, and a commit takes its instant as the clock reads it. What appenders commit
with a clock of the log is at whole milliseconds, tells its instant by its stamp and is read back with it, exactly if the
clock does not stray (`Clock.keepsInstants_iff`): the wall clock never does, the stepping clock does if its step is not
of whole milliseconds and leads to a second reading.
-/

namespace AuditTrail

open FileLog (Line)

/-- The stamps of entries tell their instants: each is a whole millisecond in UTC, no other one has its stamp, and from
the year 1000 on the stamp is read as that instant. Entries that are told apart have different stamps. -/
structure Entry.TellInstants (told : Nat → Prop) (es : List Entry) : Prop where
  whole : ∀ e ∈ es, e.createdAt.isWholeMilli = true
  denoted : ∀ e ∈ es, ∃ stamp, Stamp.write e.createdAt = .ok stamp ∧
    (∀ u : Instant, u.IsSharp → Stamp.write u = .ok stamp → u = e.createdAt) ∧
    (HasFourDigits e.createdAt.wall → StampReader.read stamp = .ok e.createdAt)
  apart : es.Pairwise fun e f => told e.createdAt.wall → told f.createdAt.wall →
    Stamp.write e.createdAt ≠ Stamp.write f.createdAt

private theorem Entry.tellInstants {told : Nat → Prop} {es : List Entry} (hs : ∀ e ∈ es, e.createdAt.IsSharp)
    (ha : es.Pairwise (Entry.Apart told)) : Entry.TellInstants told es where
  whole e he := (hs e he).whole
  denoted e he := (hs e he).denoted
  apart := by
    refine ha.imp_of_mem ?_
    intro e f he hf hapart hte htf hsame
    obtain ⟨stamp, hwrite, honly, -⟩ := (hs e he).denoted
    have hat := honly f.createdAt (hs f hf) (hsame ▸ hwrite)
    exact hapart hte htf (by rw [hat])

private theorem HasFourDigits.later {t u : Instant} (h : HasFourDigits t.wall)
    (hu : t.shift Duration.perMilli = .ok u) :
    HasFourDigits u.wall := by
  have hwall := (Instant.ofWall_eq_ok_iff.mp hu).1
  have hadd : u.wall = t.wall + Duration.perMilli := by
    simp only [Duration.perMilli] at hwall ⊢
    omega
  exact hadd ▸ (FileLog.chronicle []).later t.wall h

namespace Clock

/-- A clock of the log whose second reading, if there is one, is a whole millisecond. -/
structure IsSteady (c : Clock) : Prop where
  stock : c.IsStock
  kept : ¬c.Strays

private theorem IsSteady.gives {c : Clock} (h : c.IsSteady) :
    c.Gives Instant.IsSharp := h.stock.gives_isSharp_iff.mpr h.kept

private theorem IsStock.offset_second {c : Clock} (h : c.IsStock) {t : Instant} (ht : c.now.2.now.1 = .ok t) :
    t.offset = some 0 := by
  cases h with
  | wall h => exact ((gives_wall h).later.now ht).utc
  | stepping h =>
    obtain ⟨u, hu, rfl⟩ := stepFrom_eq_ok h
    have hsharp : u.truncate.IsSharp := Instant.isSharp_truncate (Instant.offset_of_toUtc hu)
    exact (Instant.ofWall_eq_ok_iff.mp (shift_of_second ht)).2.trans hsharp.utc

end Clock

section Moves

variable {W S : Type} {store : Store W} {strike : S → W → W} {p : Instant → Prop} {found told : Nat → Prop}
  {holds : List Entry → W → Prop}

open Session

/-- On an empty almanac of whole milliseconds, the entries that a run acknowledges tell their instants. -/
private theorem Almanac.tellInstants_run (C : Almanac store strike p found holds) (hsharp : ∀ t, p t → t.IsSharp)
    {moves : List (Move S)} (hclocks : ∀ k, .replace (some k) ∈ moves → k.Gives p)
    (htold : ∀ k wall, .replace k ∈ moves → told wall → found wall) {w : W} (hw : holds [] w) {c : Clock}
    (hc : c.Gives p) (watch : Watch) :
    ∃ es, holds es (run store strike moves (fresh w c watch)).scene.world ∧
      acknowledged store strike moves (fresh w c watch) ⊆ es ∧
      Entry.TellInstants told (acknowledged store strike moves (fresh w c watch)) := by
  have hmoves : ∀ m ∈ moves, m.IsPunctual p found told := by
    intro m hm
    cases m with
    | replace clock => exact ⟨fun k hk => hclocks k (hk ▸ hm), fun wall => htold clock wall hm⟩
    | _ => trivial
  obtain ⟨es, hheld, hkept, hapart⟩ := punctual_run C moves hmoves (punctual_fresh hw hc watch)
  rw [List.nil_append] at hkept hapart
  exact ⟨es, hheld, hkept, Entry.tellInstants (fun e he => hsharp _ (C.dated hheld e (hkept he))) hapart⟩

private theorem Session.acknowledged_subset (moves more : List (Move S)) (s : Session W) :
    acknowledged store strike more (run store strike moves s) ⊆ acknowledged store strike (moves ++ more) s := by
  induction moves generalizing s with
  | nil => exact List.Subset.refl _
  | cons m rest ih => exact List.subset_append_of_subset_right _ (ih (step store strike m s))

end Moves

namespace FileLog

variable {p : Instant → Prop} {path : Text} {rows : List Line} {es : List Entry} {s : Interrupted Files}

private theorem Dates.exists_all (h : Dates p path rows es s) (hsharp : ∀ t, p t → t.IsSharp)
    (hyear : ∀ t, p t → HasFourDigits t.wall) :
    ∃ found, ((store path).all s.world).1 = .ok found ∧ ∀ e ∈ es, e.readBack e.createdAt ∈ found := by
  have hp : ∀ r ∈ rows, p r.entry.createdAt := fun r hr => h.dated _ (h.entries ▸ List.mem_map_of_mem hr)
  have hdated : ∀ r ∈ rows, r.IsDated := by
    intro r hr
    rw [Line.IsDated, Line.utc_of_isSharp (hsharp _ (hp r hr))]
    exact hyear _ (hp r hr)
  refine ⟨_, congrArg Prod.fst (answers_of_lines h.content hdated).all, ?_⟩
  intro e he
  obtain ⟨r, hr, rfl⟩ := List.mem_map.mp (h.entries ▸ he)
  have hshown : r.shown = r.entry.readBack r.entry.createdAt :=
    congrArg r.entry.readBack (Line.createdAt_shown (hsharp _ (hp r hr)))
  exact List.mem_mergeSort.mpr (List.mem_map.mpr ⟨r, hr, hshown⟩)

end FileLog

namespace ObjectLog

variable {p : Instant → Prop} {l : ObjectLog} {es : List Entry} {w : Objects} {b : Bucket}

private theorem Dates.exists_getEntry (h : Dates p l es w b) (hsharp : ∀ t, p t → t.IsSharp) (hcalm : w.service.IsCalm)
    {e : Entry} (he : e ∈ es) (hyear : HasFourDigits e.createdAt.wall) :
    ∃ key f, l.keyFor e = .ok key ∧ (l.getEntry key w.service).1 = .ok f ∧ f.id = e.id ∧
      f.createdAt = e.createdAt := by
  obtain ⟨⟨id, hid, -⟩, key, hkey, hfor⟩ := h.placed e he
  obtain ⟨bs, hbs⟩ := Bucket.exists_get?_of_mem_keys hkey
  obtain ⟨r, rfl, hfor', hp, id', hid', -⟩ := h.lines key bs hbs
  obtain ⟨hat, rfl⟩ := same_of_keyFor hfor hfor' hid hid' (hsharp _ (h.dated e he)) (hsharp _ hp)
  have hdated : r.IsDated := by
    rw [FileLog.Line.IsDated, Line.utc_of_isSharp (hsharp _ hp), ← hat]
    exact hyear
  have hread := r.readObject_octets hdated
  refine ⟨key, r.shown, hfor, ?_, ?_, ?_⟩
  · rw [(meets_getEntry h.serves hkey).calm hcalm, entryAt, hbs, Option.getD_some, hread]
    rfl
  · exact (r.id_of_readObject hid' hread).trans hid.symm
  · exact (Line.createdAt_shown (hsharp _ hp)).trans hat.symm

end ObjectLog

namespace Clock

open Session

/-- What appenders commit that take over from each other, the first one with a given clock and each other one with the
same clock or with a steady one of its own, tells its instant, in a store in memory, in a log file and in a bucket. From
the year 1000 on it is read back with its instant from the log file and from the bucket, however their calls failed
before. A bucket does not find what is before 1970, so that a fresh appender may give such an instant again:
there, entries before 1970 are told apart only in runs without a fresh appender. -/
structure KeepsInstants (c : Clock) : Prop where
  memory : ∀ (ids : IdSource) (watch : Watch) (moves : List (Move (List Fault))),
    (∀ k, .replace (some k) ∈ moves → k.IsSteady) →
    Entry.TellInstants (fun _ => True)
      (acknowledged Memory.store Memory.strike moves (fresh (Memory.empty ids) c watch))
  file : ∀ (path : Text) (disk : Disk) (ids : IdSource) (watch : Watch) (moves : List (Move (List (Option Fault)))),
    disk.read path = .ok [] → (∀ k, .replace (some k) ∈ moves → k.IsSteady) →
    let store := (FileLog.store path).interrupted
    let begun := fresh ⟨⟨disk, ids⟩, []⟩ c watch
    Entry.TellInstants (fun _ => True) (acknowledged store Interrupted.strike moves begun) ∧
      ((∀ k, k = c ∨ .replace (some k) ∈ moves → k.Gives fun t => HasFourDigits t.wall) →
        ∃ found, ((FileLog.store path).all (run store Interrupted.strike moves begun).scene.world.world).1 = .ok found ∧
          ∀ e ∈ acknowledged store Interrupted.strike moves begun, e.readBack e.createdAt ∈ found)
  bucket : ∀ (l : ObjectLog) (service : ObjectService) (ids : IdSource) (watch : Watch)
    (moves : List (Move (RemoteCall → List (Option StagedFault)))), service.Serves l.bucket [] →
    (∀ n, ids.nth n ≠ []) → (∀ k, .replace (some k) ∈ moves → k.IsSteady) →
    let begun := fresh ⟨service, ids⟩ c watch
    let calm := (run l.store Objects.strike moves begun).scene.world.strike fun _ => []
    Entry.TellInstants (fun wall => (∀ k, .replace k ∉ moves) ∨ Instant.epochWall ≤ wall)
        (acknowledged l.store Objects.strike moves begun) ∧
      ∀ e ∈ acknowledged l.store Objects.strike moves begun, HasFourDigits e.createdAt.wall →
        ∃ key f, l.keyFor e = .ok key ∧ (l.getEntry key calm.service).1 = .ok f ∧ f.id = e.id ∧
          f.createdAt = e.createdAt

namespace IsSteady

variable {c : Clock}

private theorem keepsInstants (h : c.IsSteady) : c.KeepsInstants where
  memory ids watch moves hclocks := by
    have C := Memory.almanac (fun _ ht => ht) fun _ _ ht hu => Instant.IsSharp.later ht hu
    obtain ⟨-, -, -, htell⟩ := C.tellInstants_run (fun _ ht => ht) (fun k hk => (hclocks k hk).gives)
      (fun _ _ _ ht => ht) (w := Memory.empty ids) ⟨rfl, fun _ he => absurd he List.not_mem_nil⟩ h.gives watch
    exact htell
  file path disk ids watch moves hread hclocks := by
    have hempty : ∀ p : Instant → Prop, FileLog.Dates p path [] [] ⟨⟨disk, ids⟩, []⟩ := fun p =>
      ⟨hread, rfl, fun _ he => absurd he List.not_mem_nil⟩
    constructor
    · have C := FileLog.almanac (fun _ ht => ht) (fun _ _ ht hu => Instant.IsSharp.later ht hu) path
      obtain ⟨-, -, -, htell⟩ := C.tellInstants_run (fun _ ht => ht) (fun k hk => (hclocks k hk).gives)
        (fun _ _ _ ht => ht) ⟨[], hempty _⟩ h.gives watch
      exact htell
    · intro hyears
      let p : Instant → Prop := fun t => t.IsSharp ∧ HasFourDigits t.wall
      have hlater : ∀ t u, p t → t.shift Duration.perMilli = .ok u → p u :=
        fun _ _ ht hu => ⟨ht.1.later hu, ht.2.later hu⟩
      have hgives : ∀ {k : Clock}, k.IsSteady → k.Gives (fun t => HasFourDigits t.wall) → k.Gives p :=
        fun hk hy n t ht => ⟨hk.gives n t ht, hy n t ht⟩
      have C := FileLog.almanac (fun _ ht => ht.1) hlater path
      obtain ⟨es, ⟨rows, hheld⟩, hkept, -⟩ := C.tellInstants_run (fun _ ht => ht.1)
        (fun k hk => hgives (hclocks k hk) (hyears k (.inr hk))) (fun _ _ _ ht => ht) ⟨[], hempty p⟩
        (hgives h (hyears c (.inl rfl))) watch
      obtain ⟨found, hall, hfound⟩ := hheld.exists_all (fun _ ht => ht.1) fun _ ht => ht.2
      exact ⟨found, hall, fun e he => hfound e (hkept he)⟩
  bucket l service ids watch moves hserves hids hclocks := by
    have C := ObjectLog.almanac (fun _ ht => ht) (fun _ _ ht hu => Instant.IsSharp.later ht hu) l
    have hempty : ObjectLog.Dates Instant.IsSharp l [] ⟨service, ids⟩ [] :=
      ⟨hserves, fun _ _ hb => absurd hb (by simp [Bucket.get?]), fun _ he => absurd he List.not_mem_nil,
        fun _ he => absurd he List.not_mem_nil, hids⟩
    have htold : ∀ k wall, .replace k ∈ moves → (∀ k, .replace k ∉ moves) ∨ Instant.epochWall ≤ wall →
        Instant.epochWall ≤ wall := fun k _ hk ht => ht.resolve_left fun hno => hno k hk
    obtain ⟨es, hheld, hkept, htell⟩ := C.tellInstants_run (fun _ ht => ht) (fun k hk => (hclocks k hk).gives) htold
      ⟨[], hempty⟩ h.gives watch
    refine ⟨htell, ?_⟩
    intro e he hyear
    obtain ⟨b, hb⟩ := C.strike (fun _ => []) hheld
    exact hb.exists_getEntry (fun _ ht => ht) (fun _ => rfl) (hkept he) hyear

end IsSteady

end Clock

namespace Session

open Appender

private theorem findLast_of_no_entries {m : Memory} (he : m.entries = []) (hf : m.failures = []) :
    Memory.store.findLast m = (.ok none, m) := by
  have h := (Memory.answers hf (by rw [he]; exact fun _ hm => absurd hm List.not_mem_nil)).findLast
  rwa [he, List.mergeSort_nil] at h

private theorem exists_run_failing (ids : IdSource) (c : Clock) (watch : Watch) (f : Fault) : ∃ m watch',
    run Memory.store Memory.strike [.submit plainRequest, .work 1, .outage [f], .work 1, .outage [], .replace none]
      (fresh (Memory.empty ids) c watch) = fresh m c.now.2 watch' ∧ m.entries = [] ∧ m.failures = [] := by
  let q : Admitted := ⟨0, plainRequest, .text genesisHash, watch.metrics.running⟩
  let waiting : Appender := ⟨none, none, [.request 0 plainRequest], none, [.pending], true, false, false⟩
  let ready : Appender := ⟨some (.text genesisHash), none, [], some q, [.running], true, false, false⟩
  let struck : Scene Memory := ⟨(Memory.empty ids).strike [f], c, watch⟩
  have hsubmit : step Memory.store Memory.strike (.submit plainRequest) (fresh (Memory.empty ids) c watch) =
      ⟨waiting, ⟨Memory.empty ids, c, watch⟩⟩ := by
    have hr : Canonical.toJson plainRequest.details = .ok (.list [.null]) := rfl
    simp only [step, after, fresh, submit, hr]
    rfl
  have htake : step Memory.store Memory.strike (.work 1) ⟨waiting, ⟨Memory.empty ids, c, watch⟩⟩ =
      ⟨ready, ⟨Memory.empty ids, c, watch⟩⟩ := by
    have hfind : Memory.store.findLast (Memory.empty ids) = (.ok none, Memory.empty ids) := findLast_of_no_entries rfl rfl
    simp only [waiting, step, work, takeNext, List.getElem?_cons_zero, settleTicket, loadTip, hfind]
    rfl
  obtain ⟨hclock, hentries⟩ : (commit Memory.store q ready struck).2.clock = c.now.2 ∧
      (commit Memory.store q ready struck).2.world.entries = [] := by
    rcases commit_eq Memory.store q ready struck with ⟨g, m, hc, hm⟩ | ⟨_, _, d, e, m, -, -, hd, -⟩
    · rw [hc, clock_failAdmitted, (samePlace_failAdmitted g q ready _).2]
      refine ⟨rfl, ?_⟩
      rcases hm with rfl | ⟨_, _, d, -, -, hd⟩
      · rfl
      · exact (congrArg (fun out => out.2.entries) hd).symm.trans (Memory.create_error (congrArg Prod.fst hd))
    · exact absurd (congrArg Prod.fst hd) (by simp [struck, Memory.store, Memory.create, Memory.strike])
  generalize hs : commit Memory.store q ready struck = out at hclock hentries
  have hcommit : step Memory.store Memory.strike (.work 1) ⟨ready, struck⟩ = ⟨out.1, out.2⟩ := hs ▸ rfl
  refine ⟨out.2.world.strike [], out.2.watch, ?_, hentries, rfl⟩
  rw [← hclock]
  simp only [run, List.foldl_cons, List.foldl_nil, hsubmit, htake]
  show step Memory.store Memory.strike (.replace none) (step Memory.store Memory.strike (.outage [])
    (step Memory.store Memory.strike (.work 1) ⟨ready, struck⟩)) = _
  rw [hcommit]
  rfl

private theorem exists_acknowledged_at_second (ids : IdSource) {c : Clock} (watch : Watch) {t : Instant}
    (ht : t.offset = some 0) (hn : c.now.2.now.1 = .ok t) : ∃ moves : List (Move (List Fault)),
    (∀ k, .replace (some k) ∉ moves) ∧ ∃ e ∈ acknowledged Memory.store Memory.strike moves
      (fresh (Memory.empty ids) c watch), e.createdAt = t := by
  obtain ⟨m, watch', hrun, hentries, hfailures⟩ := exists_run_failing ids c watch .closed
  let q : Admitted := ⟨0, plainRequest, .text genesisHash, watch'.metrics.running⟩
  have hu := Instant.toUtc_of_offset ht
  have ha : t.isAware = true := Instant.isAware_of_offset ht
  have hgenesis : genesisHash.isWellFormed = true := by decide +kernel
  obtain ⟨hash, -, hlink⟩ := exists_link (p := q) hgenesis rfl ⟨_, rfl⟩ (rfl : stampAfter none t = .ok t) ha hu
  have hcreate : Memory.store.create (draftOf q t hash) m =
      (.ok ((draftOf q t hash).withId (.text m.ids.next)), (Memory.store.create (draftOf q t hash) m).2) := by
    simp only [Memory.store, Memory.create, hfailures]
    rfl
  obtain ⟨_, hrest⟩ := exists_acknowledged_cons Memory.strike watch' (r := plainRequest) rfl
    (findLast_of_no_entries hentries hfailures) (Prod.ext hn rfl) hlink hcreate
  refine ⟨[.submit plainRequest, .work 1, .outage [.closed], .work 1, .outage [], .replace none] ++
    [.submit plainRequest, .work 2, .replace none], by simp, (draftOf q t hash).withId (.text m.ids.next), ?_, rfl⟩
  apply acknowledged_subset
  rw [hrun, hrest []]
  exact List.mem_cons_self

end Session

/-- A clock of the log keeps the instants of what is committed with it exactly if it does not stray: a wall clock keeps
them, and a stepping clock if its step is of whole milliseconds or it has no second reading. -/
theorem Clock.keepsInstants_iff {c : Clock} (hc : c.IsStock) : (c.KeepsInstants ↔ ¬c.Strays) ∧
    (∀ first later, c = Clock.wall first later → c.KeepsInstants) ∧
    ∀ start step, Clock.stepFrom start step = .ok c →
      (c.KeepsInstants ↔ step % Duration.perMilli = 0 ∨ ∀ t, c.now.2.now.1 ≠ .ok t) := by
  have hiff : c.KeepsInstants ↔ ¬c.Strays := by
    constructor
    · rintro hkeeps ⟨t, hn, hstray⟩
      obtain ⟨moves, hno, e, he, rfl⟩ := Session.exists_acknowledged_at_second default default (hc.offset_second hn) hn
      have hwhole := (hkeeps.memory default default moves fun k hk => absurd hk (hno k)).whole e he
      rw [hstray] at hwhole
      exact absurd hwhole (by decide)
    · exact fun hno => Clock.IsSteady.keepsInstants ⟨hc, hno⟩
  refine ⟨hiff, ?_, ?_⟩
  · intro first later he
    cases hc with
    | wall h => exact hiff.mpr ((Clock.IsStock.wall h).gives_isSharp_iff.mp (Clock.gives_wall h))
    | stepping h =>
      obtain ⟨u, -, rfl⟩ := Clock.stepFrom_eq_ok h
      exact absurd he (by simp [Clock.wall])
  · intro start step hstep
    rw [hiff, Clock.strays_iff_of_stepFrom hstep, not_and_or, not_not, not_exists]

/-- A clock that steps by half a millisecond does not keep the instants, one that steps by a whole one does: the first
entry of a log file is read back with its instant. -/
theorem Clock.keepsInstants_iff_of_half :
    let t : Instant := ⟨63900000000000000, some 0, by decide⟩
    let disk : Disk := (FileLog.openAt (lit "log") default).2.disk
    let files := (FileLog.store (lit "log")).interrupted
    let begun := Session.fresh ⟨⟨disk, default⟩, []⟩ (.stepping t 1000) default
    let moves : List (Move (List (Option Fault))) := [.submit Session.plainRequest, .work 2, .replace none]
    ¬(Clock.stepping t 500).KeepsInstants ∧ ∃ e found, Session.acknowledged files Interrupted.strike moves begun = [e] ∧
      ((FileLog.store (lit "log")).all (Session.run files Interrupted.strike moves begun).scene.world.world).1 =
        .ok found ∧ e.createdAt = t ∧ e.readBack t ∈ found := by
  intro t disk files begun moves
  let u : Instant := ⟨63900000000000500, some 0, by decide⟩
  let v : Instant := ⟨63900000000001000, some 0, by decide⟩
  have htu : t.shift 500 = .ok u := Instant.ofWall_eq_ok_iff.mpr ⟨by decide, rfl⟩
  have huv : u.shift 500 = .ok v := Instant.ofWall_eq_ok_iff.mpr ⟨by decide, rfl⟩
  have htv : t.shift 1000 = .ok v := Instant.ofWall_eq_ok_iff.mpr ⟨by decide, rfl⟩
  have hstart : ∀ step, Duration.isPossible step = true → Clock.stepFrom t step = .ok (.stepping t step) := by
    intro step hstep
    have haware : t.isAware = true := rfl
    simp [Clock.stepFrom, hstep, haware, Instant.toUtc_of_offset (rfl : t.offset = some 0), Except.map,
      Instant.truncate_of_isWholeMilli (by decide : t.isWholeMilli = true)]
  obtain ⟨-, -, hhalf⟩ := Clock.keepsInstants_iff (.stepping (hstart 500 rfl))
  obtain ⟨-, -, hwhole⟩ := Clock.keepsInstants_iff (.stepping (hstart 1000 rfl))
  constructor
  · rw [hhalf t 500 (hstart 500 rfl)]
    rintro (hstep | hnone)
    · exact absurd hstep (by decide)
    · exact hnone u (by simp only [Clock.now, htu, huv])
  · have hempty : FileLog.Keeps (lit "log") [] ⟨disk, default⟩ := ⟨rfl, fun _ hr => absurd hr List.not_mem_nil, .nil⟩
    have hyear : HasFourDigits t.wall := Calendar.four_digits_iff.mpr (by decide)
    have hnow : (Clock.stepping t 1000).now = (.ok t, .stepping v 1000) := by simp only [Clock.now, htv]
    obtain ⟨r, _, _, -, -, hat, -, hrest⟩ := Session.exists_turn Interrupted.strike (fun _ _ => True) default none
      hempty.findLast (fun q hq => absurd hq (Option.not_mem_none q)) hnow rfl rfl (IdSource.isProper_ofNumbers [] 0).1
      fun d q he _ hu => by
        obtain ⟨v, hc, -⟩ := hempty.create_line he (show HasFourDigits q.utc.wall from hu ▸ hyear) fun _ hq =>
          absurd hq List.not_mem_nil
        exact ⟨_, hc, trivial⟩
    have hack : Session.acknowledged files Interrupted.strike moves begun = [r.entry] := hrest []
    have hmoves : ∀ k : Clock, .replace (some k) ∉ moves := by simp [moves]
    have hkeeps := (hwhole t 1000 (hstart 1000 rfl)).mpr (.inl rfl)
    have hyears : (Clock.stepping t 1000).Gives fun t => HasFourDigits t.wall :=
      Clock.gives_stepping (fun _ _ h hu => HasFourDigits.later h hu) hyear
    obtain ⟨found, hall, hfound⟩ := (hkeeps.file (lit "log") disk default default moves rfl
      fun k hk => absurd hk (hmoves k)).2 fun k hk => (hk.resolve_right (hmoves k)) ▸ hyears
    refine ⟨r.entry, found, hack, hall, hat, ?_⟩
    rw [← hat]
    exact hfound r.entry (by rw [hack]; exact List.mem_cons_self)

end AuditTrail
