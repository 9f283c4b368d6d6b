import AuditTrail.Proofs.Storage.BucketLog
import AuditTrail.Proofs.Storage.KeySightings

/-!
# Several logs in one bucket

Logs of one bucket create entries and are asked questions, in any order (`SharedBucket.runAll`). The bucket then holds
the octets of every entry that was acknowledged, each under its own key, and nothing else (`Holds`). A log finds the
entries that were created through itself from 1970 on, and those of other folders exactly as far as it admits these
folders (`apart_iff_not_admitted`). Whether its own entries are found depends on their millisecond alone
(`listed_iff_sinceEpoch`).
-/

namespace AuditTrail

open FileLog (Line)

/-- So many of the ids of a source are not empty, have no slashes, and are all different. -/
structure IdSource.IsPlain (s : IdSource) (count : Nat) : Prop where
  nonempty : ∀ n < count, s.nth n ≠ []
  slashless : ∀ n < count, CodePoint.ofChar '/' ∉ s.nth n
  distinct : ∀ m n, m < n → n < count → s.nth m ≠ s.nth n

private theorem IdSource.IsPlain.mono {s : IdSource} {count fewer : Nat} (h : s.IsPlain count) (hle : fewer ≤ count) :
    s.IsPlain fewer where
  nonempty n hn := h.nonempty n (Nat.lt_of_lt_of_le hn hle)
  slashless n hn := h.slashless n (Nat.lt_of_lt_of_le hn hle)
  distinct m n hmn hn := h.distinct m n hmn (Nat.lt_of_lt_of_le hn hle)

namespace FileLog.Line

theorem id_of_readObject {r : Line} {id : Text} (hid : r.entry.id = .text id) {e : Entry}
    (h : ObjectLog.readObject r.octets = .ok e) : e.id = .text id := by
  have hrecord : Entry.ofRecord (Canonical.reread r.record) = .ok e := by
    rw [ObjectLog.readObject, r.readUtf8_octets, r.readOctets_octets] at h
    exact h
  rw [record, Entry.ofRecord_reread, Fault.map_eq_ok_iff] at hrecord
  obtain ⟨t, -, rfl⟩ := hrecord
  show Canonical.reread r.entry.id = _
  rw [hid, Entry.reread_of_isText rfl]

end FileLog.Line

namespace SharedBucket

inductive Use where
  | create (l : ObjectLog) (d : Draft)
  | ask (l : ObjectLog) (q : Question)

/-- An entry that was created, with the log that acknowledged it. -/
structure Made where
  log : ObjectLog
  entry : Entry

namespace Use

/-- The use is of a log in a bucket, and what is asked for has readings in UTC. -/
def IsOf (name : Text) : Use → Prop
  | create l _ => l.bucket = name
  | ask l q => l.bucket = name ∧ q.HasUtc

def run : Use → Objects → List Made × Objects
  | create l d, w =>
    match l.create d w with
    | (.ok e, w) => ([⟨l, e⟩], w)
    | (.error _, w) => ([], w)
  | ask l q, w => ([], (l.store.ask q w).2)

end Use

/-- Uses one after the other, with what was created in order. -/
def runAll : List Use → Objects → List Made × Objects
  | [], w => ([], w)
  | u :: us, w =>
    let first := u.run w
    let rest := runAll us first.2
    (first.1 ++ rest.1, rest.2)

/-- The octets of a line under the key of its entry. -/
def Made.Puts (c : Made) (key : Text) (bs : List UInt8) : Prop :=
  c.log.keyFor c.entry = .ok key ∧ ∃ r : Line, r.entry = c.entry ∧ r.octets = bs

/-- A bucket holds what was created through its logs, each under its own key, and nothing else. -/
structure Holds (name : Text) (made : List Made) (w : Objects) (b : Bucket) : Prop where
  serves : w.service.Serves name b
  found : ∀ key bs, b.get? key = some bs → ∃ c ∈ made, c.Puts key bs
  kept : ∀ c ∈ made, ∃ key bs, c.Puts key bs ∧ b.get? key = some bs
  located : ∀ c ∈ made, c.log.bucket = name
  numbered : ∀ c ∈ made, ∃ n < w.ids.taken, c.entry.id = .text (w.ids.nth n)
  distinct : made.Pairwise fun c d => c.entry.id ≠ d.entry.id

section Running

variable {name : Text} {made : List Made} {w : Objects} {b : Bucket}

private theorem holds_empty (hs : w.service.Serves name []) : Holds name [] w [] where
  serves := hs
  found key bs h := absurd h (by simp [Bucket.get?_nil])
  kept c hc := absurd hc List.not_mem_nil
  located c hc := absurd hc List.not_mem_nil
  numbered c hc := absurd hc List.not_mem_nil
  distinct := .nil

private theorem Holds.put (h : Holds name made w b) {count : Nat} (hids : w.ids.IsPlain count)
    (hcount : w.ids.taken < count) {c : Made} {key : Text} {r : Line} {w' : Objects} (hlog : c.log.bucket = name)
    (hid : c.entry.id = .text w.ids.next) (hkey : c.log.keyFor c.entry = .ok key) (hr : r.entry = c.entry)
    (hs : w'.service.Serves name (b.put key r.octets)) (hw : w'.ids = w.ids.take) :
    Holds name (made ++ [c]) w' (b.put key r.octets) := by
  have hputs : c.Puts key r.octets := ⟨hkey, r, hr, rfl⟩
  have hnew : ∀ n < w.ids.taken, w.ids.nth n ≠ w.ids.next := fun n hn => hids.distinct n _ hn hcount
  have hkeys : ∀ c' ∈ made, ∀ key' bs, c'.Puts key' bs → key ≠ key' := by
    rintro c' hc' key' bs ⟨hkey', -⟩ rfl
    obtain ⟨n, hn, hid'⟩ := h.numbered c' hc'
    exact hnew n hn (ObjectLog.id_eq_of_keyFor_eq hkey' hkey hid' hid (hids.slashless n (Nat.lt_trans hn hcount))
      (hids.slashless _ hcount))
  refine ⟨hs, ?_, ?_, ?_, ?_, ?_⟩
  · intro key' bs hbs
    by_cases he : key = key'
    · rw [← he, Bucket.get?_put_self, Option.some.injEq] at hbs
      exact ⟨c, List.mem_append_right made List.mem_cons_self, he ▸ hbs ▸ hputs⟩
    · rw [Bucket.get?_put_of_ne he] at hbs
      obtain ⟨c', hc', hp⟩ := h.found key' bs hbs
      exact ⟨c', List.mem_append_left _ hc', hp⟩
  · intro c' hc'
    rcases List.mem_append.mp hc' with hc' | hc'
    · obtain ⟨key', bs, hp, hbs⟩ := h.kept c' hc'
      exact ⟨key', bs, hp, by rw [Bucket.get?_put_of_ne (hkeys c' hc' key' bs hp), hbs]⟩
    · rw [List.mem_singleton.mp hc']
      exact ⟨key, r.octets, hputs, Bucket.get?_put_self _ _ _⟩
  · intro c' hc'
    rcases List.mem_append.mp hc' with hc' | hc'
    · exact h.located c' hc'
    · rwa [List.mem_singleton.mp hc']
  · intro c' hc'
    rw [hw]
    rcases List.mem_append.mp hc' with hc' | hc'
    · obtain ⟨n, hn, hid'⟩ := h.numbered c' hc'
      exact ⟨n, Nat.lt_succ_of_lt hn, hid'⟩
    · rw [List.mem_singleton.mp hc']
      exact ⟨w.ids.taken, Nat.lt_succ_self _, hid⟩
  · refine List.pairwise_append.mpr ⟨h.distinct, List.pairwise_singleton _ c, ?_⟩
    intro c' hc' d hd he
    rw [List.mem_singleton.mp hd, hid] at he
    obtain ⟨n, hn, hid'⟩ := h.numbered c' hc'
    exact hnew n hn (Value.text.inj (hid'.symm.trans he))

/-- A use leaves the bucket as it was and makes nothing, or puts the line of the entry that it made. -/
private theorem run_cases (hs : w.service.Serves name b) {u : Use} (hu : u.IsOf name) :
    ((u.run w).1 = [] ∧ (u.run w).2.service.Serves name b ∧
        ((u.run w).2.ids = w.ids ∨ (u.run w).2.ids = w.ids.take)) ∨
      ∃ (l : ObjectLog) (d : Draft) (r : Line) (key : Text), u = .create l d ∧
        r.entry = d.withId (.text w.ids.next) ∧ l.keyFor r.entry = .ok key ∧ (u.run w).1 = [⟨l, r.entry⟩] ∧
        (u.run w).2.service.Serves name (b.put key r.octets) ∧ (u.run w).2.ids = w.ids.take := by
  cases u with
  | ask l q =>
    obtain ⟨rfl, hq⟩ := hu
    have htells := ObjectLog.tells_ask hs hq
    exact .inl ⟨rfl, htells.serves, .inl htells.ids⟩
  | create l d =>
    obtain rfl : l.bucket = name := hu
    obtain ⟨hids, hcases⟩ := ObjectLog.create_cases hs d
    rw [Use.run]
    generalize l.create d w = out at hids hcases
    obtain ⟨result, w'⟩ := out
    rcases hcases with ⟨⟨f, rfl⟩, hserves⟩ | ⟨r, key, hr, hkey, rfl, hserves⟩
    · exact .inl ⟨rfl, hserves, .inr hids⟩
    · exact .inr ⟨l, d, r, key, rfl, hr, hkey, rfl, hserves, hids⟩

private theorem serves_runAll (uses : List Use) : ∀ {w : Objects} {b : Bucket}, w.service.Serves name b →
    (∀ u ∈ uses, u.IsOf name) → ∃ b', (runAll uses w).2.service.Serves name b' ∧ b.keys ⊆ b'.keys := by
  induction uses with
  | nil =>
    intro w b hs _
    exact ⟨b, hs, List.Subset.refl _⟩
  | cons u uses ih =>
    intro w b hs hu
    obtain ⟨hfirst, hrest⟩ := List.forall_mem_cons.mp hu
    rcases run_cases hs hfirst with ⟨-, hserves, -⟩ | ⟨l, d, r, key, -, -, -, -, hserves, -⟩
    · exact ih hserves hrest
    · obtain ⟨b', hs', hsub⟩ := ih hserves hrest
      exact ⟨b', hs', fun k hk => hsub (Bucket.mem_keys_put.mpr (.inr hk))⟩

private theorem Holds.of_serves (h : Holds name made w b) {w' : Objects} (hs : w'.service.Serves name b)
    (hids : w'.ids = w.ids ∨ w'.ids = w.ids.take) : Holds name made w' b := by
  refine ⟨hs, h.found, h.kept, h.located, ?_, h.distinct⟩
  intro c hc
  obtain ⟨n, hn, hid⟩ := h.numbered c hc
  rcases hids with hsame | htake
  · exact hsame ▸ ⟨n, hn, hid⟩
  · exact htake ▸ ⟨n, Nat.lt_succ_of_lt hn, hid⟩

/-- What a use makes is held, as long as there are plain ids to come. -/
private theorem Holds.run (h : Holds name made w b) {u : Use} (hu : u.IsOf name) {more : Nat}
    (hids : w.ids.IsPlain (w.ids.taken + (more + 1))) :
    ∃ b', Holds name (made ++ (u.run w).1) (u.run w).2 b' ∧
      (u.run w).2.ids.IsPlain ((u.run w).2.ids.taken + more) := by
  have htaken : w.ids.take.IsPlain (w.ids.take.taken + more) := by
    have hcount : w.ids.taken + (more + 1) = w.ids.take.taken + more := by
      show _ = w.ids.taken + 1 + more
      omega
    rw [hcount] at hids
    exact ⟨hids.nonempty, hids.slashless, hids.distinct⟩
  rcases run_cases h.serves hu with ⟨hmade, hserves, hsame⟩ | ⟨l, d, r, key, rfl, hr, hkey, hmade, hserves, htake⟩
  · rw [hmade, List.append_nil]
    refine ⟨b, h.of_serves hserves hsame, ?_⟩
    rcases hsame with hsame | htake
    · rw [hsame]
      exact hids.mono (by omega)
    · rwa [htake]
  · rw [hmade, htake]
    exact ⟨_, h.put hids (by omega) hu (by rw [hr]; rfl) hkey rfl hserves htake, htaken⟩

/-- Whatever is made of a bucket's logs, it is held. -/
theorem Holds.runAll (uses : List Use) : ∀ {made : List Made} {w : Objects} {b : Bucket}, Holds name made w b →
    (∀ u ∈ uses, u.IsOf name) → w.ids.IsPlain (w.ids.taken + uses.length) →
    ∃ b', Holds name (made ++ (SharedBucket.runAll uses w).1) (SharedBucket.runAll uses w).2 b' ∧
      (SharedBucket.runAll uses w).2.ids.IsPlain (SharedBucket.runAll uses w).2.ids.taken := by
  induction uses with
  | nil =>
    intro made w b h _ hids
    exact ⟨b, by rwa [SharedBucket.runAll, List.append_nil], hids⟩
  | cons u uses ih =>
    intro made w b h hu hids
    obtain ⟨hfirst, hrest⟩ := List.forall_mem_cons.mp hu
    obtain ⟨b', h', hids'⟩ := h.run hfirst hids
    obtain ⟨b'', h'', hids''⟩ := ih h' hrest hids'
    exact ⟨b'', by rwa [List.append_assoc] at h'', hids''⟩

private theorem exists_draft_of_mem_runAll (uses : List Use) : ∀ {w : Objects} {b : Bucket}, w.service.Serves name b →
    (∀ u ∈ uses, u.IsOf name) → ∀ c ∈ (runAll uses w).1,
      ∃ d, .create c.log d ∈ uses ∧ c.entry.createdAt = d.createdAt := by
  induction uses with
  | nil =>
    intro w b _ _ c hc
    exact absurd hc List.not_mem_nil
  | cons u uses ih =>
    intro w b hs hu c hc
    obtain ⟨hfirst, hrest⟩ := List.forall_mem_cons.mp hu
    have hlater : ∀ {b' : Bucket}, (u.run w).2.service.Serves name b' → c ∈ (runAll uses (u.run w).2).1 →
        ∃ d, .create c.log d ∈ u :: uses ∧ c.entry.createdAt = d.createdAt := by
      intro b' hs' hm
      obtain ⟨d, hd, hat⟩ := ih hs' hrest c hm
      exact ⟨d, List.mem_cons_of_mem u hd, hat⟩
    rcases run_cases hs hfirst with ⟨hmade, hserves, -⟩ | ⟨l, d, r, key, rfl, hr, -, hmade, hserves, -⟩
    · rcases List.mem_append.mp hc with hm | hm
      · rw [hmade] at hm
        exact absurd hm List.not_mem_nil
      · exact hlater hserves hm
    · rcases List.mem_append.mp hc with hm | hm
      · rw [hmade] at hm
        rw [List.mem_singleton.mp hm]
        exact ⟨d, List.mem_cons_self, by rw [hr]; rfl⟩
      · exact hlater hserves hm

end Running

section Seeing

variable {name : Text} {made : List Made} {w : Objects} {b : Bucket} (h : Holds name made w b)
  {l : ObjectLog}

include h

private theorem Holds.exists_id {c : Made} (hc : c ∈ made) (hids : w.ids.IsPlain w.ids.taken) :
    ∃ id, c.entry.id = .text id ∧ id ≠ [] ∧ CodePoint.ofChar '/' ∉ id := by
  obtain ⟨n, hn, hid⟩ := h.numbered c hc
  exact ⟨w.ids.nth n, hid, hids.nonempty n hn, hids.slashless n hn⟩

/-- Under a key of the listing is the line of an entry that was created with that key. -/
private theorem Holds.exists_line {k : Int × Text} (hk : k ∈ l.listing b) : ∃ c ∈ made, ∃ r : Line, r.entry = c.entry ∧
    c.log.keyFor c.entry = .ok k.2 ∧ ObjectLog.entryAt b k.2 = ObjectLog.readObject r.octets := by
  obtain ⟨bs, hbs⟩ := Bucket.exists_get?_of_mem_keys (ObjectLog.mem_listing.mp hk).1
  obtain ⟨c, hc, hkey, r, hr, rfl⟩ := h.found k.2 bs hbs
  exact ⟨c, hc, r, hr, hkey, by rw [ObjectLog.entryAt, hbs, Option.getD_some]⟩

variable (hids : w.ids.IsPlain w.ids.taken) (hl : l.bucket = name)

include hl

private theorem Holds.folder_ne {c : Made} (hc : c ∈ made) (hne : c.log ≠ l) : c.log.folder ≠ l.folder := by
  intro he
  have hb := (h.located c hc).trans hl.symm
  cases hlog : c.log with
  | mk bucket folder =>
    rw [hlog] at he hb hne
    exact hne (by rw [show bucket = l.bucket from hb, show folder = l.folder from he])

include hids

private theorem Holds.mem_answer {q : Question} {es : List Entry} (ha : l.answer b q = .ok es) {e : Entry}
    (he : e ∈ es) :
    ∃ c ∈ made, e.id = c.entry.id ∧ (c.log = l ∨ l.Admits c.log) := by
  obtain ⟨k, hk, hread⟩ := ObjectLog.mem_of_answer ha he
  obtain ⟨c, hc, r, hr, hkey, hobject⟩ := h.exists_line hk
  obtain ⟨id, hid, -, hs⟩ := h.exists_id hc hids
  refine ⟨c, hc, ?_, ?_⟩
  · rw [hid]
    exact r.id_of_readObject (hr ▸ hid) (hobject.symm.trans hread)
  · by_cases hlog : c.log = l
    · exact .inl hlog
    · have htold : (l.millisOfKey? k.2).isSome = true := by rw [(ObjectLog.mem_listing.mp hk).2]; rfl
      exact .inr ((ObjectLog.isSome_millisOfKey?_iff_admits (h.folder_ne hl hc hlog) hkey hid hs).mp htold)

variable (hepoch : ∀ c ∈ made, Instant.epochWall ≤ c.entry.createdAt.moment)

include hepoch

private theorem Holds.exists_answer_all : ∃ es, l.answer b .all = .ok es ∧
    ∀ c ∈ made, c.log = l ∨ l.Admits c.log → ∃ e ∈ es, e.id = c.entry.id := by
  have hdated : ∀ c ∈ made, ∀ r : Line, r.entry = c.entry → ObjectLog.readObject r.octets = .ok r.shown := by
    intro c hc r hr
    have hsince := hepoch c hc
    rw [← hr, r.moment_entry] at hsince
    exact r.readObject_octets (FileLog.Line.isDated_of_sinceEpoch (by exact_mod_cast hsince))
  obtain ⟨es, hes, hmem⟩ := ObjectLog.exists_answer_all (l := l) (b := b) fun k hk => by
    obtain ⟨c, hc, r, hr, -, hobject⟩ := h.exists_line hk
    exact ⟨r.shown, hobject.trans (hdated c hc r hr)⟩
  refine ⟨es, hes, ?_⟩
  intro c hc hsees
  obtain ⟨key, bs, ⟨hkey, r, hr, rfl⟩, hbs⟩ := h.kept c hc
  obtain ⟨id, hid, hne, hs⟩ := h.exists_id hc hids
  have htold : ∃ ms, l.millisOfKey? key = some ms := by
    rw [← Option.isSome_iff_exists]
    by_cases hlog : c.log = l
    · obtain ⟨ms, i, hms, hi, -⟩ := ObjectLog.keyFor_eq_ok_iff.mp hkey
      obtain rfl := ObjectLog.display?_eq_some hid hi
      obtain rfl := Except.ok.inj (hms.symm.trans (hr ▸ r.hasUtc_entry).epochMillis_eq_milli)
      rw [← hlog, ObjectLog.millisOfKey?_keyFor hkey hms hi hne, if_pos (Instant.milli_nonneg_iff.mpr (hepoch c hc))]
      rfl
    · exact (ObjectLog.isSome_millisOfKey?_iff_admits (h.folder_ne hl hc hlog) hkey hid hs).mpr
        (hsees.resolve_left hlog)
  obtain ⟨ms, hms⟩ := htold
  have hentry : ObjectLog.entryAt b key = .ok r.shown := by
    rw [ObjectLog.entryAt, hbs, Option.getD_some, hdated c hc r hr]
  have hshown := hmem (ms, key) (ObjectLog.mem_listing.mpr ⟨Bucket.mem_keys_of_get? hbs, hms⟩) r.shown hentry
  exact ⟨r.shown, hshown, by rw [hid]; exact r.id_of_readObject (hr ▸ hid) (hdated c hc r hr)⟩

end Seeing

/-- The logs of a bucket stay apart as far as their folders allow. No read of a log returns what was created through
others if it admits none of their folders; and from 1970 on, a log finds all that was created through itself and, of
what was created through others, exactly what it admits. -/
theorem apart_iff_not_admitted {name : Text} {w : Objects} (hs : w.service.Serves name []) {uses : List Use}
    (hu : ∀ u ∈ uses, u.IsOf name) (hids : w.ids.IsPlain (w.ids.taken + uses.length))
    (hepoch : ∀ (l : ObjectLog) (d : Draft), .create l d ∈ uses → Instant.epochWall ≤ d.createdAt.moment)
    {l : ObjectLog} (hl : l.bucket = name) :
    let made := (runAll uses w).1
    let after := (runAll uses w).2
    ((∀ c ∈ made, c.log ≠ l → ¬l.Admits c.log) → ∀ (q : Question) (es : List Entry), q.HasUtc →
      (l.store.ask q after).1 = .ok es → ∀ e ∈ es, (∃ c ∈ made, c.log = l ∧ e.id = c.entry.id) ∧
        ∀ c ∈ made, c.log ≠ l → e.id ≠ c.entry.id) ∧
    (after.service.IsCalm → ∃ es, l.store.ask .all after = (.ok es, after) ∧
      ∀ c ∈ made, (∃ e ∈ es, e.id = c.entry.id) ↔ c.log = l ∨ l.Admits c.log) := by
  intro made after
  obtain ⟨b, h, hplain⟩ := (holds_empty hs).runAll uses hu hids
  rw [List.nil_append] at h
  have hdistinct : (made.map fun c => c.entry.id).Nodup := List.pairwise_map.mpr h.distinct
  have hsame : ∀ c ∈ made, ∀ c' ∈ made, c.entry.id = c'.entry.id → c = c' :=
    fun c hc c' hc' he => List.inj_on_of_nodup_map hdistinct hc hc' he
  constructor
  · intro hnone q es hq hask e he
    obtain ⟨c, hc, hid, hsees⟩ := h.mem_answer hplain hl (ObjectLog.answer_of_ask (hl ▸ h.serves) hq hask) he
    have hlog : c.log = l := by
      by_contra hne
      exact hnone c hc hne (hsees.resolve_left hne)
    refine ⟨⟨c, hc, hlog, hid⟩, ?_⟩
    intro c' hc' hne he'
    exact hne (hsame c hc c' hc' (hid.symm.trans he') ▸ hlog)
  · intro hcalm
    have hmade : ∀ c ∈ made, Instant.epochWall ≤ c.entry.createdAt.moment := by
      intro c hc
      obtain ⟨d, hd, hat⟩ := exists_draft_of_mem_runAll uses hs hu c hc
      rw [hat]
      exact hepoch c.log d hd
    obtain ⟨es, hes, hfound⟩ := h.exists_answer_all hplain hl hmade
    have hask := (ObjectLog.tells_ask (hl ▸ h.serves : after.service.Serves l.bucket b) (q := .all) trivial).calm hcalm
    refine ⟨es, by rw [hask, hes], ?_⟩
    intro c hc
    constructor
    · rintro ⟨e, he, hid⟩
      obtain ⟨c', hc', hid', hsees⟩ := h.mem_answer hplain hl hes he
      rwa [hsame c hc c' hc' (hid.symm.trans hid')]
    · exact hfound c hc

def bareDraft (t : Instant) : Draft :=
  ⟨.text (lit "a"), .text (lit "m"), .null, .list [], .text (lit "0"), .text (lit "0"), t⟩

def emptyObjects : Objects := ⟨⟨[(lit "b", [])], fun _ => [], 1000⟩, default⟩

private theorem serves_emptyObjects : emptyObjects.service.Serves (lit "b") [] :=
  ⟨by decide, rfl, fun _ hc _ => List.mem_singleton.mp hc⟩

private theorem exists_create_bareDraft {t : Instant} (ht : t.offset = some 0) {l : ObjectLog}
    (hl : l.bucket = lit "b") :
    ∃ s b, l.create (bareDraft t) emptyObjects =
        (.ok ((bareDraft t).withId (.text emptyObjects.ids.next)), ⟨s, emptyObjects.ids.take⟩) ∧
      s.Serves (lit "b") b ∧ s.IsCalm := by
  have ha : t.isAware = true := Instant.isAware_of_offset ht
  have hf : ∀ v ∈ [.text emptyObjects.ids.next, .text (lit "a"), .text (lit "m"), .null, .list [], .text (lit "0"),
      .text (lit "0")], ∃ u, Canonical.encode v = .ok u := by
    simp only [List.mem_cons, List.not_mem_nil, or_false, forall_eq_or_imp, forall_eq]
    exact ⟨⟨_, rfl⟩, ⟨_, rfl⟩, ⟨_, rfl⟩, ⟨_, rfl⟩, ⟨_, rfl⟩, ⟨_, rfl⟩, ⟨_, rfl⟩⟩
  obtain ⟨r, hr, -⟩ := Line.exists_of_encodable (e := (bareDraft t).withId (.text emptyObjects.ids.next)) ha
    (Instant.toUtc_of_offset ht) hf
  have hkey : l.keyFor r.entry = .ok (l.root ++ (ObjectLog.nameOf t.milli emptyObjects.ids.next ++ lit ".json")) := by
    rw [hr]
    exact ObjectLog.keyFor_eq_ok_iff.mpr
      ⟨_, _, Instant.HasUtc.epochMillis_eq_milli ⟨ha, t, Instant.toUtc_of_offset ht⟩, rfl, rfl⟩
  obtain ⟨s, hcreate, hserves, hcalm⟩ :=
    ObjectLog.create_at_key (hl ▸ serves_emptyObjects) (fun _ => rfl) hkey hr
  exact ⟨s, _, hr ▸ hcreate, hl ▸ hserves, hcalm⟩

/-- A reader of one folder finds what was created through a log of a month below it. -/
theorem apart_iff_not_admitted_of_month :
    let reader : ObjectLog := .ofFolder (lit "b") (lit "audit/")
    let month : ObjectLog := .ofFolder (lit "b") (lit "audit/2026-03")
    let d := bareDraft ⟨63900000000000123, some 0, by decide⟩
    ∃ (e : Entry) (es : List Entry), (runAll [.create month d] emptyObjects).1 = [⟨month, e⟩] ∧
      (reader.store.ask .all (runAll [.create month d] emptyObjects).2).1 = .ok es ∧ ∃ f ∈ es, f.id = e.id := by
  intro reader month d
  obtain ⟨s, -, hcreate, -, hcalm⟩ := exists_create_bareDraft (t := d.createdAt) (l := month) rfl rfl
  have hrun : runAll [.create month d] emptyObjects =
      ([⟨month, d.withId (.text emptyObjects.ids.next)⟩], ⟨s, emptyObjects.ids.take⟩) := by
    have hcreate : month.create d emptyObjects = _ := hcreate
    simp only [runAll, Use.run, hcreate, List.append_nil]
    rfl
  have hof : ∀ u ∈ [Use.create month d], u.IsOf (lit "b") := by
    simp only [List.mem_singleton, forall_eq]
    rfl
  have hplain : emptyObjects.ids.IsPlain (emptyObjects.ids.taken + [Use.create month d].length) := by
    refine ⟨?_, ?_, fun m n hmn hn => absurd hn (by show ¬n < 1; omega)⟩ <;>
      · intro n hn
        obtain rfl : n = 0 := Nat.lt_one_iff.mp hn
        decide
  have hepoch : ∀ (l : ObjectLog) (c : Draft), Use.create l c ∈ [Use.create month d] →
      (Instant.epochWall : Int) ≤ c.createdAt.moment := by
    simp only [List.mem_singleton, Use.create.injEq, and_imp, forall_eq_apply_imp_iff]
    intro l d
    decide +kernel
  have hadmits : reader.Admits month := ⟨lit "2026", lit "03", rfl, by decide, by decide⟩
  obtain ⟨-, hfound⟩ := apart_iff_not_admitted (l := reader) serves_emptyObjects hof hplain hepoch rfl
  rw [hrun] at hfound
  obtain ⟨es, hask, hes⟩ := hfound hcalm
  refine ⟨_, es, by rw [hrun], by rw [hrun, hask], ?_⟩
  exact (hes _ (List.mem_singleton_self _)).mpr (.inr hadmits)

/-- The key of an entry tells its millisecond exactly from 1970 on. An entry that was acknowledged is listed exactly
then, whatever else the bucket holds and however its logs are used later on; before 1970, its creation changes no
answer of its own log. -/
theorem listed_iff_sinceEpoch (l : ObjectLog) :
    (∀ (e : Entry) (id : Text), e.createdAt.HasUtc → e.id.display? = some id → id ≠ [] →
      ∃ key, l.keyFor e = .ok key ∧
        l.millisOfKey? key = if 0 ≤ e.createdAt.milli then some e.createdAt.milli else none) ∧
    ∀ (b : Bucket) (w : Objects) (d : Draft) (e : Entry) (uses : List Use), w.service.Serves l.bucket b →
      w.ids.next ≠ [] → (∀ u ∈ uses, u.IsOf l.bucket) → (l.create d w).1 = .ok e →
        ∃ key c, l.keyFor e = .ok key ∧ (runAll uses (l.create d w).2).2.service.Serves l.bucket c ∧
          (∀ ms, (ms, key) ∈ l.listing c ↔ 0 ≤ ms ∧ ms = e.createdAt.milli) ∧
          (e.createdAt.milli < 0 → w.service.IsCalm → ∀ q : Question, q.HasUtc →
            (l.store.ask q (l.create d w).2).1 = (l.store.ask q w).1) := by
  have htold : ∀ {e : Entry} {key id : Text}, e.createdAt.HasUtc → l.keyFor e = .ok key → e.id.display? = some id →
      id ≠ [] → l.millisOfKey? key = if 0 ≤ e.createdAt.milli then some e.createdAt.milli else none :=
    fun hutc hkey hid hne => ObjectLog.millisOfKey?_keyFor hkey hutc.epochMillis_eq_milli hid hne
  constructor
  · intro e id hutc hid hne
    have hkey : l.keyFor e = .ok (l.root ++ (ObjectLog.nameOf e.createdAt.milli id ++ lit ".json")) :=
      ObjectLog.keyFor_eq_ok_iff.mpr ⟨_, id, hutc.epochMillis_eq_milli, hid, rfl⟩
    exact ⟨_, hkey, htold hutc hkey hid hne⟩
  · intro b w d e uses hs hid hu hok
    rcases (ObjectLog.create_cases hs d).2 with ⟨⟨f, hf⟩, -⟩ | ⟨r, key, hr, hkey, hcreated, hserves⟩
    · exact absurd (hf.symm.trans hok) (by simp)
    obtain rfl := Except.ok.inj (hcreated.symm.trans hok)
    obtain ⟨c, hc, hsub⟩ := serves_runAll uses hserves hu
    have htold := htold r.hasUtc_entry hkey (by rw [hr]; rfl) hid
    refine ⟨key, c, hkey, hc, ?_, ?_⟩
    · intro ms
      have hheld : key ∈ c.keys := hsub (Bucket.mem_keys_put.mpr (.inl rfl))
      rw [ObjectLog.mem_listing, and_iff_right hheld, htold]
      split
      · next hsince =>
        rw [Option.some.injEq]
        constructor
        · rintro rfl
          exact ⟨hsince, rfl⟩
        · exact fun he => he.2.symm
      · next hbefore =>
        refine ⟨fun he => absurd he (by simp), ?_⟩
        rintro ⟨hsince, rfl⟩
        exact absurd hsince hbefore
    · intro hneg hcalm q hq
      obtain ⟨s, hout, hput, hcalm'⟩ := ObjectLog.create_at_key hs hcalm hkey hr
      rw [if_neg (by omega)] at htold
      have hafter := (ObjectLog.tells_ask (w := ⟨s, w.ids.take⟩) hput hq).calm hcalm'
      have hbefore := (ObjectLog.tells_ask hs hq).calm hcalm
      rw [hout, hafter, hbefore, ObjectLog.answer_put_of_unlisted htold]

/-- An event in the last millisecond before 1970 is acknowledged, and all entries are those of the empty bucket. -/
theorem listed_iff_sinceEpoch_of_before :
    let l : ObjectLog := .ofFolder (lit "b") (lit "audit")
    let d := bareDraft ⟨62135596799999000, some 0, by decide⟩
    ∃ (e : Entry) (key : Text) (c : Bucket), (l.create d emptyObjects).1 = .ok e ∧ l.keyFor e = .ok key ∧
      (l.create d emptyObjects).2.service.Serves (lit "b") c ∧ (∀ ms, (ms, key) ∉ l.listing c) ∧
      (l.store.ask .all (l.create d emptyObjects).2).1 = (l.store.ask .all emptyObjects).1 := by
  intro l d
  obtain ⟨s, -, hcreate, -, -⟩ := exists_create_bareDraft (t := d.createdAt) (l := l) rfl rfl
  have hok : (l.create d emptyObjects).1 = .ok (d.withId (.text emptyObjects.ids.next)) := congrArg Prod.fst hcreate
  have hneg : (d.withId (.text emptyObjects.ids.next)).createdAt.milli < 0 := by decide +kernel
  obtain ⟨key, c, hkey, hserves, hlisted, hsame⟩ := (listed_iff_sinceEpoch l).2 [] emptyObjects d _ []
    serves_emptyObjects (by decide) (fun u hu => absurd hu List.not_mem_nil) hok
  refine ⟨_, key, c, hok, hkey, hserves, ?_, hsame hneg (fun _ => rfl) .all trivial⟩
  intro ms hms
  obtain ⟨hsince, rfl⟩ := (hlisted ms).mp hms
  omega

end SharedBucket

end AuditTrail
