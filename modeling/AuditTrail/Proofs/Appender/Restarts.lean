import AuditTrail.Proofs.Appender.PersistedChain
import AuditTrail.Proofs.Chain.HashInput
import AuditTrail.Proofs.Storage.BucketLog

/-!
# Restarts

Appenders that take over from each other on a log file, or on a bucket, write a chain that every verification finds
intact, and it counts the entries that were acknowledged (`Session.restarts_verify`). The clocks of a log file may
read anything from the year 1000 on, and stand still or go back. Those of a bucket read whole milliseconds from 1970 on,
because its keys tell no more.
-/

namespace AuditTrail

open FileLog (Line)

/-- A world in which calls may fail before they do anything, as staged for the calls to come. -/
structure Interrupted (W : Type) where
  world : W
  staged : List (Option Fault)

namespace Interrupted

variable {W α : Type}

/-- A call fails as it is staged, or else is carried out. -/
def attempt (op : Op W α) : Op (Interrupted W) α := fun s =>
  match s.staged with
  | some f :: later => (.error f, ⟨s.world, later⟩)
  | none :: later => ((op s.world).1, ⟨(op s.world).2, later⟩)
  | [] => ((op s.world).1, ⟨(op s.world).2, []⟩)

def strike (staged : List (Option Fault)) (s : Interrupted W) : Interrupted W := { s with staged := staged }

theorem attempt_cases (op : Op W α) (s : Interrupted W) :
    ((∃ f, (attempt op s).1 = .error f) ∧ (attempt op s).2.world = s.world) ∨
      ((attempt op s).1 = (op s.world).1 ∧ (attempt op s).2.world = (op s.world).2) := by
  rw [attempt]
  split
  · exact .inl ⟨⟨_, rfl⟩, rfl⟩
  · exact .inr ⟨rfl, rfl⟩
  · exact .inr ⟨rfl, rfl⟩

end Interrupted

/-- The store, each of whose calls may fail before it does anything. -/
def Store.interrupted {W : Type} (store : Store W) : Store (Interrupted W) where
  create d := Interrupted.attempt (store.create d)
  findLast := Interrupted.attempt store.findLast
  findJustBefore t := Interrupted.attempt (store.findJustBefore t)
  findBetween start finish := Interrupted.attempt (store.findBetween start finish)
  all := Interrupted.attempt store.all

/-- A reading in UTC whose year has four digits. -/
def HasFourDigits (wall : Nat) : Prop := 1000 ≤ (Calendar.dateOf (wall / Duration.perDay)).year

/-- A reading in UTC of a whole millisecond from 1970 on. -/
def IsEpochMilli (wall : Nat) : Prop := wall % Duration.perMilli = 0 ∧ Instant.epochWall ≤ wall

def Instant.cutMoment (t : Instant) : Int := t.moment - t.moment % Duration.perMilli

namespace FileLog

private theorem Line.moment_shown_mono {q r : Line} (h : q.shown.createdAt.moment ≤ r.entry.createdAt.moment) :
    q.shown.createdAt.moment ≤ r.shown.createdAt.moment := by
  rw [q.moment_shown] at h ⊢
  rw [r.moment_shown]
  simp only [Duration.perMilli] at h ⊢
  omega

/-- A log file holds lines that can be read, in the order of their instants. -/
structure Keeps (path : Text) (rows : List Line) (w : Files) : Prop where
  content : w.disk.read path = .ok (rows.flatMap Line.bytes)
  dated : ∀ r ∈ rows, r.IsDated
  sorted : Ordered.IsSorted (rows.map Line.shown)

private theorem Keeps.concat {path : Text} {rows : List Line} {w v : Files} (h : Keeps path rows w) {r : Line}
    (hread : v.disk.read path = .ok (rows.flatMap Line.bytes ++ r.bytes)) (hd : r.IsDated)
    (hle : ∀ q ∈ rows, q.shown.createdAt.moment ≤ r.entry.createdAt.moment) : Keeps path (rows ++ [r]) v where
  content := by rw [List.flatMap_append, List.flatMap_singleton, hread]
  dated q hq := by
    rcases List.mem_append.mp hq with hm | hm
    · exact h.dated q hm
    · exact List.mem_singleton.mp hm ▸ hd
  sorted := by
    rw [List.map_append, List.map_singleton]
    refine List.pairwise_append.mpr ⟨h.sorted, List.pairwise_singleton _ _, ?_⟩
    intro e hm g hg
    obtain ⟨q, hq, rfl⟩ := List.mem_map.mp hm
    rw [List.mem_singleton.mp hg]
    exact Line.moment_shown_mono (hle q hq)

private theorem Keeps.answers {path : Text} {rows : List Line} {w : Files} (h : Keeps path rows w) :
    (store path).Answers w (rows.map Line.shown) := by
  have ha := answers_of_lines h.content h.dated
  have hs : (rows.map Line.shown).Pairwise fun a b => Ordered.le a b = true :=
    h.sorted.imp fun hab => decide_eq_true hab
  rwa [List.mergeSort_of_pairwise hs] at ha

/-- The log file of a world in which calls may fail holds lines. -/
def Holds (path : Text) (rows : List Line) (s : Interrupted Files) : Prop := Keeps path rows s.world

private theorem Holds.of_world {path : Text} {rows : List Line} {s s' : Interrupted Files} (h : Holds path rows s)
    (hw : s'.world = s.world) : Holds path rows s' :=
  show Keeps path rows s'.world from hw ▸ h

/-- A log file is a chronicle, whatever calls fail. -/
theorem chronicle (path : Text) : Chronicle (store path).interrupted Interrupted.strike HasFourDigits
    (Holds path) where
  later wall h := by
    rw [HasFourDigits, Calendar.four_digits_iff] at h ⊢
    exact h.trans (Nat.div_le_div_right (Nat.le_add_right _ _))
  cut wall h := by
    have hday : (wall - wall % Duration.perMilli) / Duration.perDay = wall / Duration.perDay := by
      simp only [Duration.perMilli, Duration.perDay, Duration.perHour, Duration.perSecond]
      omega
    rw [HasFourDigits, hday]
    exact h
  sorted h := h.sorted
  taken h := h.dated
  strike _ h := h
  findLast {rows s} h := by
    rcases Interrupted.attempt_cases (store path).findLast s with ⟨hf, hw⟩ | ⟨ha, hw⟩
    · exact ⟨h.of_world hw, .inl hf⟩
    · rw [h.answers.findLast] at ha hw
      exact ⟨h.of_world hw, .inr ha⟩
  create {rows s} h d hfits hlt := by
    rcases Interrupted.attempt_cases ((store path).create d) s with ⟨hf, hw⟩ | ⟨ha, hw⟩
    · exact .inl ⟨hf, h.of_world hw⟩
    · rcases create_cases h.content d with ⟨⟨f, hf⟩, hdisk⟩ | ⟨r, he, hok, hread⟩
      · refine .inl ⟨⟨f, ha.trans hf⟩, ?_⟩
        refine ⟨?_, h.dated, h.sorted⟩
        exact hw ▸ hdisk ▸ h.content
      · have hat : r.entry.createdAt = d.createdAt := by
          rw [he]
          rfl
        refine .inr ⟨r, _, he, ha.trans hok, Keeps.concat h (hw ▸ hread) ?_ fun q hq => ?_⟩
        · exact hfits (hat ▸ r.isAware_entry) r.utc (hat ▸ r.toUtc_eq)
        · exact hat ▸ Int.le_of_lt (hlt q hq)

section Calm

variable {path : Text} {rows : List Line} {w : Files} (h : Keeps path rows w)

include h

theorem Keeps.findLast :
    (store path).interrupted.findLast ⟨w, []⟩ = (.ok (rows.map Line.shown).getLast?, ⟨w, []⟩) := by
  simp only [Store.interrupted, Interrupted.attempt, h.answers.findLast]

/-- Without a failure, a line is put behind the others. -/
theorem Keeps.create_line {d : Draft} {r : Line} (he : r.entry = d.withId (.text w.ids.next)) (hd : r.IsDated)
    (hle : ∀ q ∈ rows, q.shown.createdAt.moment ≤ r.entry.createdAt.moment) :
    ∃ v, (store path).interrupted.create d ⟨w, []⟩ = (.ok r.entry, ⟨v, []⟩) ∧ Keeps path (rows ++ [r]) v ∧
      v.ids = w.ids.take := by
  obtain ⟨disk, hcreate, hread⟩ := FileLog.create_line h.content he
  refine ⟨⟨disk, w.ids.take⟩, ?_, h.concat hread hd hle, rfl⟩
  have hc : (store path).create d w = (.ok r.entry, ⟨disk, w.ids.take⟩) := hcreate
  simp only [Store.interrupted, Interrupted.attempt, hc]

end Calm

end FileLog

/-- Other answers are staged for the calls of an object service to come. -/
def Objects.strike (staged : RemoteCall → List (Option StagedFault)) (w : Objects) : Objects :=
  { w with service := { w.service with staged := staged } }

namespace ObjectLog

/-- A bucket holds lines at whole milliseconds, and the ids to come are not empty. -/
structure Holds (l : ObjectLog) (rows : List Line) (w : Objects) : Prop where
  bucket : ∃ b, w.service.Serves l.bucket b ∧ l.Keeps rows b
  taken : ∀ r ∈ rows, IsEpochMilli r.utc.wall
  ids : ∀ n, w.ids.nth n ≠ []

private theorem Holds.sorted {l : ObjectLog} {rows : List Line} {w : Objects} (h : l.Holds rows w) :
    Ordered.IsSorted (rows.map Line.shown) := by
  obtain ⟨b, -, hkeeps⟩ := h.bucket
  rw [Ordered.IsSorted, List.pairwise_map]
  apply hkeeps.increasing.imp
  intro q r hqr
  rw [q.moment_shown_millis, r.moment_shown_millis]
  simp only [Duration.perMilli]
  omega

private theorem Holds.strike {l : ObjectLog} {rows : List Line} {w : Objects} (h : l.Holds rows w)
    (staged : RemoteCall → List (Option StagedFault)) : l.Holds rows (w.strike staged) := by
  obtain ⟨b, hserves, hkeeps⟩ := h.bucket
  exact ⟨⟨b, ⟨hserves.pageSize, hserves.bucket, hserves.only⟩, hkeeps⟩, h.taken, h.ids⟩

private theorem Holds.concat {l : ObjectLog} {rows : List Line} {w v : Objects} (h : l.Holds rows w)
    {b : Bucket} (hkeeps : l.Keeps rows b) {r : Line} (hr : r.IsKeyed) (hm : IsEpochMilli r.utc.wall)
    (hlt : ∀ q ∈ rows, q.shown.createdAt.moment < r.entry.createdAt.moment)
    (hserves : v.service.Serves l.bucket (b.put (l.keyOf r) r.octets)) (hids : ∀ n, v.ids.nth n ≠ []) :
    l.Holds (rows ++ [r]) v where
  bucket := by
    refine ⟨_, hserves, hkeeps.concat hr fun q hq => ?_⟩
    have hlt := hlt q hq
    have hwhole := hm.1
    rw [r.moment_entry, q.moment_shown_millis] at hlt
    simp only [FileLog.Line.millis, Duration.perMilli, Instant.epochWall, Duration.perDay, Duration.perHour,
      Duration.perSecond] at hlt hwhole ⊢
    omega
  taken q hq := by
    rcases List.mem_append.mp hq with hm' | hm'
    · exact h.taken q hm'
    · exact List.mem_singleton.mp hm' ▸ hm
  ids := hids

section Calm

variable {l : ObjectLog} {rows : List Line} {w : Objects} (h : l.Holds rows w) (hc : w.service.IsCalm)

include h hc

private theorem Holds.findLast : l.store.findLast w = (.ok (rows.map Line.shown).getLast?, w) := by
  obtain ⟨b, hserves, hkeeps⟩ := h.bucket
  exact (hkeeps.answers hserves hc).findLast

/-- In a calm service, a line is put behind the others. -/
private theorem Holds.create_line {d : Draft} {r : Line} (he : r.entry = d.withId (.text w.ids.next))
    (hm : IsEpochMilli r.utc.wall) (hlt : ∀ q ∈ rows, q.shown.createdAt.moment < r.entry.createdAt.moment) :
    ∃ v, l.store.create d w = (.ok r.entry, v) ∧ l.Holds (rows ++ [r]) v ∧ v.service.IsCalm ∧ v.ids = w.ids.take := by
  obtain ⟨b, hserves, hkeeps⟩ := h.bucket
  have hkeyed : r.IsKeyed := ⟨⟨_, by rw [he]; rfl, h.ids _⟩, hm.2⟩
  obtain ⟨service, hcreate, hserves', hcalm⟩ := ObjectLog.create_line hserves hc hkeyed he
  exact ⟨_, hcreate, h.concat hkeeps hkeyed hm hlt hserves' h.ids, hcalm, rfl⟩

end Calm

/-- A bucket is a chronicle, whatever calls of the service fail. -/
private theorem chronicle (l : ObjectLog) : Chronicle l.store Objects.strike IsEpochMilli l.Holds where
  later wall h := by
    obtain ⟨hm, he⟩ := h
    exact ⟨(Nat.add_mod_right _ _).trans hm, he.trans (Nat.le_add_right _ _)⟩
  cut wall h := by
    rw [h.1]
    exact h
  sorted h := h.sorted
  taken h := h.taken
  strike staged h := h.strike staged
  findLast {rows w} h := by
    obtain ⟨b, hserves, hkeeps⟩ := h.bucket
    have hf := hkeeps.findLast hserves
    refine ⟨⟨⟨b, hf.serves, hkeeps⟩, h.taken, ?_⟩, hf.result.imp_left fun ⟨f, he, _⟩ => ⟨f, he⟩⟩
    show ∀ n, (l.findLast w).2.ids.nth n ≠ []
    rw [hf.ids]
    exact h.ids
  create {rows w} h d hfits hlt := by
    obtain ⟨b, hserves, hkeeps⟩ := h.bucket
    obtain ⟨hids, hcases⟩ := create_cases hserves d
    have hproper : ∀ n, (l.create d w).2.ids.nth n ≠ [] := by
      rw [hids]
      exact h.ids
    rcases hcases with ⟨hf, hserves'⟩ | ⟨r, key, he, hkey, hok, hserves'⟩
    · exact .inl ⟨hf, ⟨b, hserves', hkeeps⟩, h.taken, hproper⟩
    · have hat : r.entry.createdAt = d.createdAt := by
        rw [he]
        rfl
      have hmilli : IsEpochMilli r.utc.wall := hfits (hat ▸ r.isAware_entry) r.utc (hat ▸ r.toUtc_eq)
      have hkeyed : r.IsKeyed := ⟨⟨_, by rw [he]; rfl, h.ids _⟩, hmilli.2⟩
      obtain rfl : l.keyOf r = key := Except.ok.inj ((keyFor_line l hkeyed).symm.trans hkey)
      exact .inr ⟨r, _, he, hok, h.concat hkeeps hkeyed hmilli (hat ▸ hlt) hserves' hproper⟩

end ObjectLog

namespace Verifier

variable {W : Type}

/-- Every range between instants in UTC is found intact, and the entries of which the moment, cut to the millisecond,
is in the range are counted. -/
def FindsIntact (store : Store W) (w : W) (es : List Entry) : Prop :=
  ∀ start finish : Instant, start.HasUtc → finish.HasUtc → start.moment ≤ finish.moment → ∀ watch : Watch,
    (verify store none start finish w watch).1 = .ok (.intact (es.countP fun e =>
      decide (start.moment ≤ e.createdAt.cutMoment) && decide (e.createdAt.cutMoment ≤ finish.moment)))

/-- Linked lines from which a store answers are found intact. -/
private theorem findsIntact_of_lines {store : Store W} {w : W} {rows : List Line}
    (h : store.Answers w (rows.map Line.shown)) (hs : Ordered.IsSorted (rows.map Line.shown))
    (hl : Chain.Linked (.text genesisHash) (rows.map Line.shown)) {es : List Entry}
    (hp : (rows.map Line.entry).Perm es) : FindsIntact store w es := by
  intro start finish hu hv hle watch
  have hutc : ∀ e ∈ rows.map Line.shown, e.createdAt.HasUtc := by
    intro e he
    obtain ⟨r, -, rfl⟩ := List.mem_map.mp he
    exact ⟨r.isAware_shown, _, Instant.toUtc_of_offset r.offset_shown⟩
  have hcovers : store.Covers w (rows.map Line.shown) start finish :=
    ⟨hs, h.findBetween start finish hu hv, fun e he => h.findJustBefore _ (hutc e he)⟩
  have hcount : (Ordered.inRange start finish (rows.map Line.shown)).length = es.countP fun e =>
      decide (start.moment ≤ e.createdAt.cutMoment) && decide (e.createdAt.cutMoment ≤ finish.moment) := by
    rw [← hp.countP_eq, Ordered.inRange, ← List.countP_eq_length_filter, List.countP_map, List.countP_map]
    apply List.countP_congr
    intro r _
    have hcut : r.shown.createdAt.moment = r.entry.createdAt.cutMoment := r.moment_shown
    rw [Function.comp, Function.comp, hcut]
  obtain ⟨hsu, u, hu⟩ := hu
  obtain ⟨hfu, v, hv⟩ := hv
  rw [verify_of_covers hcovers hl hsu hfu hle hu hv watch, hcount]

end Verifier

namespace Appender

theorem exists_link {p : Admitted} (hp : p.previousHash.isProperText = true)
    (he : p.request.eventType.isProperText = true) (hd : ∃ body, Canonical.encode p.request.details = .ok body)
    {last : Option Instant} {reading t u : Instant} (hstamp : stampAfter last reading = .ok t)
    (ha : t.isAware = true) (hu : t.toUtc = .ok u) :
    ∃ hash, hash.isWellFormed = true ∧ link p last reading = .ok (hash, draftOf p t hash) := by
  obtain ⟨previous, hprevious, hpw⟩ := Value.exists_of_isProperText hp
  obtain ⟨event, hevent, hew⟩ := Value.exists_of_isProperText he
  obtain ⟨body, hbody⟩ := hd
  obtain ⟨input, hi, hw⟩ : ∃ input, Link.hashInput p.previousHash p.request.eventType t p.request.details = .ok input ∧
      input.isWellFormed = true := by
    rw [hprevious, hevent]
    refine ⟨_, Link.hashInput_of_ok previous event hbody (Stamp.write_of_toUtc ha hu), ?_⟩
    simp only [Text.isWellFormed_append, Text.isWellFormed_lit, StampReader.isWellFormed_ofUtcWall, hpw, hew,
      Canonical.isWellFormed_of_encode hbody, Bool.and_self]
  refine ⟨Sha256.hexDigest (Utf8.encode input), ?_, ?_⟩
  · apply Canonical.isWellFormed_of_forall_lt
    intro c hc
    have hv := Sha256.val_of_mem_hexDigest hc
    omega
  · rw [link, hstamp]
    simp only [bind, Except.bind, Link.hash, hi, Link.hashText, Utf8.encode?, hw, if_true]
    rfl

/-- A request that is linked with an entry that is storable has a line. -/
private theorem exists_line {p : Admitted} {last : Option Instant} {reading t u : Instant}
    (hstamp : stampAfter last reading = .ok t) (ha : t.isAware = true) (hu : t.toUtc = .ok u) {id : Text}
    (hs : ∀ hash : Text, hash.isWellFormed = true → ((draftOf p t hash).withId (.text id)).IsStorable) :
    ∃ (hash : Text) (r : Line), link p last reading = .ok (hash, draftOf p t hash) ∧
      r.entry = (draftOf p t hash).withId (.text id) ∧ r.utc = u ∧ r.entry.IsStorable := by
  have hempty := hs [] rfl
  obtain ⟨hash, hw, hlink⟩ := exists_link hempty.previousHash hempty.eventType hempty.encodable hstamp ha hu
  obtain ⟨r, he, hr⟩ := Line.exists_of_encodable ha hu (hs hash hw).encodable_fields
  exact ⟨hash, r, hlink, he, hr, he ▸ hs hash hw⟩

end Appender

namespace Session

open Appender

/-- A fresh appender with one request, which is then replaced: if it can link the request to the last entry and the
store takes the draft, the entry is acknowledged and the run goes on without it. -/
theorem exists_acknowledged_cons {W S : Type} {store : Store W} (strike : S → W → W) {w v u : W}
    {clock later : Clock} (watch : Watch) {r : Request} {details : Value} {last : Option Entry} {reading : Instant}
    {hash : Text} {d : Draft} {e : Entry} (hr : Canonical.toJson r.details = .ok details)
    (hf : store.findLast w = (.ok last, v)) (hn : clock.now = (.ok reading, later))
    (hl : link ⟨0, { r with details := details }, last.elim (.text genesisHash) Entry.currentHash,
      watch.metrics.running⟩ (last.map Entry.createdAt) reading = .ok (hash, d))
    (hc : store.create d v = (.ok e, u)) :
    ∃ watch', ∀ rest, acknowledged store strike (.submit r :: .work 2 :: .replace none :: rest) (fresh w clock watch) =
      e :: acknowledged store strike rest (fresh u later watch') := by
  let p : Admitted :=
    ⟨0, { r with details := details }, last.elim (.text genesisHash) Entry.currentHash, watch.metrics.running⟩
  let asked : Appender := ⟨none, none, [.request 0 p.request], none, [.pending], true, false, false⟩
  let taken (tip : Option Value) : Appender :=
    ⟨tip, last.map Entry.createdAt, [], some p, [.running], true, false, false⟩
  have hsubmit : step store strike (.submit r) (fresh w clock watch) = ⟨asked, ⟨w, clock, watch⟩⟩ := by
    simp only [step, after, fresh, submit, hr]
    rfl
  obtain ⟨tip, htake⟩ : ∃ tip, takeNext store asked ⟨w, clock, watch⟩ = (taken tip, ⟨v, clock, watch⟩) := by
    simp only [takeNext, asked, List.getElem?_cons_zero, settleTicket, loadTip, hf]
    cases last with
    | none => exact ⟨_, rfl⟩
    | some l => exact ⟨_, rfl⟩
  obtain ⟨a, watch', hcommit, hout⟩ : ∃ a watch', commit store p (taken tip) ⟨v, clock, watch⟩ =
      (a, ⟨u, later, watch'⟩) ∧ a.outcomes = [.stored e] := by
    simp only [commit, hn, bind, Except.bind, taken, p, hl, hc]
    exact ⟨_, _, rfl, rfl⟩
  have hwork : step store strike (.work 2) (step store strike (.submit r) (fresh w clock watch)) =
      ⟨a, ⟨u, later, watch'⟩⟩ := by
    rw [hsubmit]
    simp only [step, work, asked, Bool.false_or, List.isEmpty_cons, Bool.false_eq_true, if_false]
    rw [htake]
    simp only [taken, hcommit]
  refine ⟨watch', fun rest => ?_⟩
  simp only [acknowledged, retired, List.nil_append]
  rw [hwork, Appender.acknowledged, hout]
  rfl

/-- A request that can be linked and stored. -/
def plainRequest : Request := ⟨.text (lit "login"), .text (lit "auth"), .list [.null], .null⟩

private theorem isStorable_plainRequest {p : Admitted} (hp : p.request = plainRequest)
    (hprevious : p.previousHash.isProperText = true) (t : Instant) {hash id : Text} (hw : hash.isWellFormed = true)
    (hid : id.isWellFormed = true) : ((draftOf p t hash).withId (.text id)).IsStorable := by
  simp only [draftOf, Draft.withId, hp]
  exact ⟨hid, Text.isWellFormed_lit _, Text.isWellFormed_lit _, .inl rfl, hprevious, hw, ⟨_, rfl⟩, rfl⟩

/-- A fresh appender with one request, on a store that finds a line last and takes the next one: the request is linked
to the line as it is read back, and acknowledged. -/
theorem exists_turn {W S : Type} {store : Store W} (strike : S → W → W) (P : Line → W → Prop) {w : W}
    {clock later : Clock} (watch : Watch) (last : Option Line)
    (hfind : store.findLast w = (.ok (last.map Line.shown), w)) (hlast : ∀ q ∈ last, q.entry.IsStorable)
    {reading t : Instant} (hn : clock.now = (.ok reading, later))
    (hstamp : stampAfter ((last.map Line.shown).map Entry.createdAt) reading = .ok t) (ht : t.offset = some 0)
    {id : Text} (hid : id.isWellFormed = true)
    (hcreate : ∀ (d : Draft) (q : Line), q.entry = d.withId (.text id) → q.entry.createdAt = t → q.utc = t →
      ∃ u, store.create d w = (.ok q.entry, u) ∧ P q u) :
    ∃ q u watch', P q u ∧ q.entry.IsStorable ∧ q.entry.createdAt = t ∧ q.utc = t ∧ ∀ rest,
      acknowledged store strike (.submit plainRequest :: .work 2 :: .replace none :: rest) (fresh w clock watch) =
        q.entry :: acknowledged store strike rest (fresh u later watch') := by
  have hprevious : ((last.map Line.shown).elim (.text genesisHash) Entry.currentHash).isProperText = true := by
    cases last with
    | none => exact (by decide +kernel : genesisHash.isWellFormed = true)
    | some q =>
      have hq := hlast q rfl
      exact (congrArg Value.isProperText (FileLog.Line.matches_shown hq.isTextual).currentHash).trans hq.currentHash
  have haware : t.isAware = true := Instant.isAware_of_offset ht
  obtain ⟨hash, q, hlink, he, hutc, hq⟩ := exists_line hstamp haware (Instant.toUtc_of_offset ht) fun _ hw =>
    isStorable_plainRequest (p := ⟨0, plainRequest, _, watch.metrics.running⟩) rfl hprevious t hw hid
  have hat : q.entry.createdAt = t := by rw [he]; rfl
  obtain ⟨u, hc, hP⟩ := hcreate _ q he hat hutc
  obtain ⟨watch', hrest⟩ := exists_acknowledged_cons strike watch (r := plainRequest) rfl hfind hn hlink hc
  exact ⟨q, u, watch', hP, hq, hat, hutc, hrest⟩

/-- An appender with one request, and after it another one. -/
def twoTurns {S : Type} : List (Move S) :=
  [.submit plainRequest, .work 2, .replace none, .submit plainRequest, .work 2, .replace none]

private theorem isPlain_twoTurns {S : Type} (good : Nat → Prop) : ∀ m ∈ (twoTurns : List (Move S)), m.IsPlain good := by
  have hr : (Move.submit plainRequest : Move S).IsPlain good := ⟨rfl, rfl, .inl rfl, rfl⟩
  simp only [twoTurns, List.mem_cons, List.not_mem_nil, or_false, forall_eq_or_imp, forall_eq]
  exact ⟨hr, trivial, trivial, hr, trivial, trivial⟩

/-- The clock stands still after a whole millisecond. The second appender reads the first entry back at the whole
millisecond, so that its own entry is dated as the first one. -/
private theorem exists_twoTurns_file {path : Text} {w : Files} (hempty : FileLog.Keeps path [] w) (hids : w.ids.IsProper)
    {t : Instant} (ht : t.offset = some 0) (hyear : HasFourDigits t.wall) (hlate : t.truncate.moment < t.moment)
    (watch : Watch) : ∃ e e', acknowledged (FileLog.store path).interrupted Interrupted.strike twoTurns
      (fresh ⟨w, []⟩ (.scripted (.ok t) []) watch) = [e, e'] ∧ e.createdAt = t ∧ e'.createdAt = t := by
  have hdated : ∀ q : Line, q.utc = t → q.IsDated := fun q hq => by rwa [Line.IsDated, hq]
  obtain ⟨q, _, watch, ⟨v, rfl, hkeeps, hv⟩, hq, hqat, hqutc, hfirst⟩ := exists_turn Interrupted.strike
    (fun q s => ∃ v, s = ⟨v, []⟩ ∧ FileLog.Keeps path [q] v ∧ v.ids = w.ids.take) watch none hempty.findLast
    (fun q hq => absurd hq (Option.not_mem_none q)) (rfl : (Clock.scripted (.ok t) []).now = _) rfl ht
    (hids _).1 fun d q he _ hu => by
      obtain ⟨v, hc, hk, hi⟩ := hempty.create_line he (hdated q hu) fun _ hq => absurd hq List.not_mem_nil
      exact ⟨_, hc, v, rfl, hk, hi⟩
  have hshown : q.shown.createdAt = t.truncate := congrArg Instant.truncate hqutc
  have haware : q.shown.createdAt.isAware = t.isAware := q.isAware_shown.trans (Instant.isAware_of_offset ht).symm
  have hstamp : stampAfter (some q.shown.createdAt) t = .ok t := by
    rw [stampAfter, Instant.notAfter, Instant.comparable, haware, if_pos (beq_self_eq_true _), hshown,
      decide_eq_false (Int.not_le.mpr hlate)]
    rfl
  obtain ⟨q', _, watch', -, -, hqat', -, hsecond⟩ := exists_turn Interrupted.strike (fun _ _ => True) watch (some q)
    hkeeps.findLast (fun _ hr => Option.mem_some.mp hr ▸ hq) (rfl : (Clock.scripted (.ok t) []).now = _) hstamp ht
    (hv ▸ (hids _).1 : v.ids.next.isWellFormed = true) fun d q' he hat hu => by
      obtain ⟨v, hc, -⟩ := hkeeps.create_line he (hdated q' hu) fun p hp => by
        rw [List.mem_singleton.mp hp, hshown, hat]
        exact Int.le_of_lt hlate
      exact ⟨_, hc, trivial⟩
  refine ⟨q.entry, q'.entry, ?_, hqat, hqat'⟩
  rw [twoTurns, hfirst, hsecond]
  rfl

/-- The clock stands still at a whole millisecond, so that the second entry gets a millisecond more. -/
private theorem exists_twoTurns_bucket {l : ObjectLog} {w : Objects} (hempty : l.Holds [] w) (hcalm : w.service.IsCalm)
    (hids : w.ids.IsProper) {t next : Instant} (ht : t.offset = some 0) (hm : IsEpochMilli t.wall)
    (hshift : t.shift Duration.perMilli = .ok next) (watch : Watch) :
    ∃ e e', acknowledged l.store Objects.strike twoTurns (fresh w (.scripted (.ok t) []) watch) = [e, e'] ∧
      e.createdAt = t ∧ e'.createdAt = next := by
  obtain ⟨q, v, watch, ⟨hholds, hstill, hv⟩, hq, hqat, hqutc, hfirst⟩ := exists_turn Objects.strike
    (fun q v => l.Holds [q] v ∧ v.service.IsCalm ∧ v.ids = w.ids.take) watch none (hempty.findLast hcalm)
    (fun q hq => absurd hq (Option.not_mem_none q)) (rfl : (Clock.scripted (.ok t) []).now = _) rfl ht (hids _).1
    fun d q he _ hu => hempty.create_line hcalm he (hu ▸ hm) fun _ hq => absurd hq List.not_mem_nil
  have hwhole : t.isWholeMilli = true := beq_iff_eq.mpr hm.1
  have hshown : q.shown.createdAt = t :=
    (congrArg Instant.truncate hqutc).trans (Instant.truncate_of_isWholeMilli hwhole)
  have hstamp : stampAfter (some q.shown.createdAt) t = .ok next := by
    rw [hshown, stampAfter, Instant.notAfter, Instant.comparable, if_pos (beq_self_eq_true _),
      decide_eq_true (Int.le_refl _)]
    simp only [bind, Except.bind, if_true, hshift]
  obtain ⟨hwall, hoffset⟩ := Instant.ofWall_eq_ok_iff.mp hshift
  have hlater : IsEpochMilli next.wall := by
    have hwall : next.wall = t.wall + Duration.perMilli := by exact_mod_cast hwall
    exact hwall ▸ (ObjectLog.chronicle l).later _ hm
  have hmoment := Instant.moment_of_shift hshift
  obtain ⟨q', _, watch', -, -, hqat', -, hsecond⟩ := exists_turn Objects.strike (fun _ _ => True) watch (some q)
    (hholds.findLast hstill) (fun _ hr => Option.mem_some.mp hr ▸ hq) (rfl : (Clock.scripted (.ok t) []).now = _)
    hstamp (hoffset.trans ht) (hv ▸ (hids _).1 : v.ids.next.isWellFormed = true)
    fun d q' he hat hu => by
      obtain ⟨v, hc, -⟩ := hholds.create_line hstill he (hu ▸ hlater) fun p hp => by
        rw [List.mem_singleton.mp hp, hshown, hat]
        simp only [Duration.perMilli] at hmoment
        omega
      exact ⟨v, hc, trivial⟩
  refine ⟨q.entry, q'.entry, ?_, hqat, hqat'⟩
  rw [twoTurns, hfirst, hsecond]
  rfl

/-- Whatever happens to appenders that take over from each other on an empty log file or on an empty bucket, every
verification finds what they wrote intact and counts the entries that they acknowledged. -/
theorem restarts_verify :
    (∀ (path : Text) (disk : Disk) (ids : IdSource) (clock : Clock) (watch : Watch)
      (moves : List (Move (List (Option Fault)))), disk.read path = .ok [] →
      clock.Gives (Instant.Fits HasFourDigits) → (∀ m ∈ moves, m.IsPlain HasFourDigits) →
      let begun := fresh ⟨⟨disk, ids⟩, []⟩ clock watch
      let store := (FileLog.store path).interrupted
      Verifier.FindsIntact (FileLog.store path) (run store Interrupted.strike moves begun).scene.world.world
        (acknowledged store Interrupted.strike moves begun)) ∧
    ∀ (l : ObjectLog) (service : ObjectService) (ids : IdSource) (clock : Clock) (watch : Watch)
      (moves : List (Move (RemoteCall → List (Option StagedFault)))), service.Serves l.bucket [] →
      (∀ n, ids.nth n ≠ []) → clock.Gives (Instant.Fits IsEpochMilli) → (∀ m ∈ moves, m.IsPlain IsEpochMilli) →
      let begun := fresh ⟨service, ids⟩ clock watch
      Verifier.FindsIntact l.store ((run l.store Objects.strike moves begun).scene.world.strike fun _ => [])
        (acknowledged l.store Objects.strike moves begun) := by
  refine ⟨?_, ?_⟩
  · intro path disk ids clock watch moves hread hclock hmoves begun store
    have hempty : FileLog.Keeps path [] begun.scene.world.world :=
      ⟨hread, fun _ hr => absurd hr List.not_mem_nil, .nil⟩
    obtain ⟨rows, hw, hl, hperm⟩ :=
      standing_run (FileLog.chronicle path) moves hmoves (standing_fresh (FileLog.Holds path) hempty hclock watch)
    exact Verifier.findsIntact_of_lines hw.answers hw.sorted hl hperm
  · intro l service ids clock watch moves hserves hids hclock hmoves begun
    have hempty : l.Holds [] begun.scene.world :=
      ⟨⟨[], hserves, .nil l⟩, fun _ hr => absurd hr List.not_mem_nil, hids⟩
    obtain ⟨rows, hw, hl, hperm⟩ := standing_run l.chronicle moves hmoves (standing_fresh l.Holds hempty hclock watch)
    have hcalm := hw.strike fun _ => []
    obtain ⟨b, hserves', hkeeps⟩ := hcalm.bucket
    exact Verifier.findsIntact_of_lines (hkeeps.answers hserves' fun _ => rfl) hcalm.sorted hl hperm

/-- A second appender appends behind the entry of the first one. In a log file it reads that entry back half a
millisecond early, so that both are dated alike; in a bucket its own entry gets a millisecond more. Both are found. -/
theorem restarts_verify_after_first :
    let t : Instant := ⟨63900000000000000, some 0, by decide⟩
    let half : Instant := ⟨63900000000000500, some 0, by decide⟩
    let next : Instant := ⟨63900000000001000, some 0, by decide⟩
    let disk : Disk := (FileLog.openAt (lit "log") default).2.disk
    let onFile := run (FileLog.store (lit "log")).interrupted Interrupted.strike twoTurns
      (fresh ⟨⟨disk, default⟩, []⟩ (.scripted (.ok half) []) default)
    let log := ObjectLog.ofFolder (lit "b") (lit "audit")
    let service : ObjectService := ⟨[(lit "b", [])], fun _ => [], 1⟩
    let onBucket := run log.store Objects.strike twoTurns
      (fresh ⟨service, default⟩ (.scripted (.ok t) []) default)
    (Verifier.verify (FileLog.store (lit "log")) none t t onFile.scene.world.world default).1 = .ok (.intact 2) ∧
      (Verifier.verify log.store none t next (onBucket.scene.world.strike fun _ => []) default).1 = .ok (.intact 2) := by
  intro t half next disk onFile log service onBucket
  have hids : (default : IdSource).IsProper := IdSource.isProper_ofNumbers []
  have hutc : ∀ u : Instant, u.offset = some 0 → u.HasUtc := fun u hu =>
    ⟨Instant.isAware_of_offset hu, u, Instant.toUtc_of_offset hu⟩
  refine ⟨?_, ?_⟩
  · have hyear : HasFourDigits half.wall := Calendar.four_digits_iff.mpr (by decide)
    have hempty : FileLog.Keeps (lit "log") [] ⟨disk, default⟩ := ⟨rfl, fun _ hr => absurd hr List.not_mem_nil, .nil⟩
    obtain ⟨e, e', hack, he, he'⟩ := exists_twoTurns_file (t := half) hempty hids rfl hyear (by decide) default
    have hv := restarts_verify.1 (lit "log") disk default (.scripted (.ok half) []) default twoTurns rfl
      (Clock.gives_scripted (Instant.fits_of_offset rfl hyear)) (isPlain_twoTurns _) t t (hutc t rfl) (hutc t rfl)
      (Int.le_refl _) default
    have hin : (decide (t.moment ≤ half.cutMoment) && decide (half.cutMoment ≤ t.moment)) = true := by decide +kernel
    rw [hack, List.countP_cons, List.countP_singleton, he, he', if_pos hin] at hv
    exact hv
  · have hserves : service.Serves log.bucket [] := ⟨by decide, rfl, fun c hc _ => List.mem_singleton.mp hc⟩
    have hmilli : IsEpochMilli t.wall := ⟨by decide, by decide⟩
    have hempty : log.Holds [] ⟨service, default⟩ :=
      ⟨⟨[], hserves, .nil log⟩, fun _ hr => absurd hr List.not_mem_nil, fun n => (hids n).2⟩
    have hshift : t.shift Duration.perMilli = .ok next := Instant.ofWall_eq_ok_iff.mpr ⟨by decide, rfl⟩
    obtain ⟨e, e', hack, he, he'⟩ :=
      exists_twoTurns_bucket hempty (fun _ => rfl) hids rfl hmilli hshift default
    have hv := restarts_verify.2 log service default (.scripted (.ok t) []) default twoTurns hserves
      (fun n => (hids n).2) (Clock.gives_scripted (Instant.fits_of_offset rfl hmilli)) (isPlain_twoTurns _) t next
      (hutc t rfl) (hutc next rfl) (by decide) default
    have hin : ∀ x ∈ [t, next], (decide (t.moment ≤ x.cutMoment) && decide (x.cutMoment ≤ next.moment)) = true := by
      decide +kernel
    rw [hack, List.countP_cons, List.countP_singleton, he, he', if_pos (hin t (by simp)),
      if_pos (hin next (by simp))] at hv
    exact hv

end Session

end AuditTrail
