import AuditTrail.Proofs.Appender.Punctual
import AuditTrail.Proofs.Appender.Restarts
import AuditTrail.Proofs.Storage.KeyOrder

/-!
# Stores give back the dates they were given

A store in memory, a log file and a bucket are almanacs of the entries that were created in them, if these are at whole
milliseconds in UTC (`Memory.almanac`, `FileLog.almanac`, `ObjectLog.almanac`). A bucket finds those from 1970 on; the
other two find all, whatever the year is, as a log file with a line that it cannot read finds nothing at all.
-/

namespace AuditTrail

open FileLog (Line)

private theorem Ordered.IsSorted.exists_last {es : List Entry} (h : IsSorted es) {e : Entry} (he : e ∈ es) :
    ∃ l, es.getLast? = some l ∧ e.createdAt.moment ≤ l.createdAt.moment := by
  rcases List.eq_nil_or_concat es with rfl | ⟨front, l, rfl⟩
  · exact absurd he List.not_mem_nil
  rw [List.concat_eq_append] at h he ⊢
  refine ⟨l, List.getLast?_concat, ?_⟩
  rcases List.mem_append.mp he with hm | hm
  · exact (List.pairwise_append.mp h).2.2 e hm l List.mem_cons_self
  · rw [List.mem_singleton.mp hm]

private theorem Ordered.exists_last_mergeSort {es : List Entry} (ha : ∀ e ∈ es, e.createdAt.isAware = true) {e : Entry}
    (he : e ∈ es) : ∃ l, (es.mergeSort le).getLast? = some l ∧ e.createdAt.moment ≤ l.createdAt.moment :=
  (isSorted_of_sort (sort_of_aware ha)).exists_last (List.mem_mergeSort.mpr he)

namespace FileLog.Line

variable {r : Line}

theorem utc_of_isSharp (h : r.entry.createdAt.IsSharp) : r.utc = r.entry.createdAt :=
  Except.ok.inj (r.toUtc_eq.symm.trans (Instant.toUtc_of_offset h.utc))

theorem createdAt_shown (h : r.entry.createdAt.IsSharp) : r.shown.createdAt = r.entry.createdAt := by
  show r.utc.truncate = _
  rw [utc_of_isSharp h, Instant.truncate_of_isWholeMilli h.whole]

private theorem readObject_of_not_isDated (h : ¬r.IsDated) : ∃ f, ObjectLog.readObject r.octets = .error f := by
  have hread : StampReader.read (Stamp.ofUtcWall r.utc.wall) = .error (.platform .malformedValue) :=
    StampReader.read_of_shortYear (Nat.lt_of_not_le h)
  refine ⟨.platform .malformedValue, ?_⟩
  rw [ObjectLog.readObject, r.readUtf8_octets, r.readOctets_octets]
  show Entry.ofRecord (Canonical.reread r.record) = _
  rw [record, Entry.ofRecord_reread, hread]
  rfl

private theorem eq_shown_of_readObject {e : Entry} (h : ObjectLog.readObject r.octets = .ok e) :
    r.IsDated ∧ e = r.shown := by
  by_cases hd : r.IsDated
  · exact ⟨hd, Except.ok.inj (h.symm.trans (r.readObject_octets hd))⟩
  · obtain ⟨f, hf⟩ := readObject_of_not_isDated hd
    exact absurd (h.symm.trans hf) (by simp)

end FileLog.Line

namespace FileLog

/-- The lines of a log file are those of given entries, whose instants are of a kind. -/
structure Dates (p : Instant → Prop) (path : Text) (rows : List Line) (es : List Entry) (s : Interrupted Files) :
    Prop where
  content : s.world.disk.read path = .ok (rows.flatMap Line.bytes)
  entries : rows.map Line.entry = es
  dated : ∀ e ∈ es, p e.createdAt

private theorem isDated_of_findLast {path : Text} {rows : List Line} {w : Files}
    (hr : w.disk.read path = .ok (rows.flatMap Line.bytes)) {last : Option Entry}
    (h : ((store path).findLast w).1 = .ok last) : ∀ r ∈ rows, r.IsDated := by
  by_contra hno
  push Not at hno
  obtain ⟨f, hf, -⟩ := exists_mapM_readLine_error hno
  have hread : readLines (rows.flatMap Line.bytes) = .error f := by
    rw [readLines, completeLines_bytes, filter_bytes, hf]
  simp only [store, reading, FileLog.entries, hr, bind, Except.bind, hread] at h
  exact absurd h (by simp)

end FileLog

namespace ObjectLog

private theorem millisText_injective {m n : Int} (h : millisText m = millisText n) : m = n := by
  have hhead : ∀ {k i : Nat}, Decimal.padded 15 i ≠ CodePoint.ofChar '-' :: Decimal.padded 14 k := by
    intro k i he
    have hno : Decimal.padded 15 i ++ [] ≠ _ := padded_append_ne_hyphen (by decide) [] (Decimal.padded 14 k)
    rw [List.append_nil] at hno
    exact hno he
  rw [millisText, millisText] at h
  split at h
  · split at h
    · have := Decimal.padded_injective (List.tail_eq_of_cons_eq h)
      omega
    · exact absurd h.symm hhead
  · split at h
    · exact absurd h hhead
    · have := Decimal.padded_injective h
      omega

end ObjectLog

private theorem Instant.IsSharp.moment_eq_milli {t : Instant} (h : t.IsSharp) :
    t.moment = epochWall + t.milli * Duration.perMilli := by
  have hwhole := h.mod_eq
  rw [milli, h.moment_eq]
  simp only [epochWall, Duration.perDay, Duration.perHour, Duration.perSecond, Duration.perMilli] at hwhole ⊢
  omega

namespace ObjectLog

variable {l : ObjectLog} {b : Bucket} {w : Objects}

/-- At whole milliseconds in UTC, the key of an entry tells its instant and its id. -/
theorem same_of_keyFor {e f : Entry} {key id id' : Text} (he : l.keyFor e = .ok key) (hf : l.keyFor f = .ok key)
    (hid : e.id = .text id) (hid' : f.id = .text id') (hes : e.createdAt.IsSharp) (hfs : f.createdAt.IsSharp) :
    e.createdAt = f.createdAt ∧ id = id' := by
  obtain ⟨m, i, hm, hi, hkey⟩ := keyFor_eq_ok_iff.mp he
  obtain ⟨n, j, hn, hj, hkey'⟩ := keyFor_eq_ok_iff.mp hf
  obtain rfl := display?_eq_some hid hi
  obtain rfl := display?_eq_some hid' hj
  have hname : nameOf m i = nameOf n j := List.append_cancel_right (List.append_cancel_left (hkey.symm.trans hkey'))
  obtain rfl := id_eq_of_nameOf_eq hname
  obtain rfl := millisText_injective (List.append_cancel_right (List.append_cancel_right hname))
  have hmilli : e.createdAt.milli = f.createdAt.milli :=
    Except.ok.inj (hes.hasUtc.epochMillis_eq_milli.symm.trans (hm.trans (hn.symm.trans hfs.hasUtc.epochMillis_eq_milli)))
  have hmoment : e.createdAt.moment = f.createdAt.moment := by rw [hes.moment_eq_milli, hfs.moment_eq_milli, hmilli]
  rw [hes.moment_eq, hfs.moment_eq] at hmoment
  exact ⟨hes.eq_of_wall hfs (Int.ofNat.inj hmoment), rfl⟩

private theorem findLast_cases (hs : w.service.Serves l.bucket b) {last : Option Entry}
    (h : (l.findLast w).1 = .ok last) :
    ((l.listing b).getLast? = none ∧ last = none) ∨
      ∃ k e, (l.listing b).getLast? = some k ∧ entryAt b k.2 = .ok e ∧ last = some e := by
  have hanswer : (l.answer b .last).map List.head? = .ok last := by
    rcases (tells_findLast hs).result with ⟨f, hf, -⟩ | htold
    · exact absurd (hf.symm.trans h) (by simp)
    · exact htold.symm.trans h
  rw [answer, Question.visits] at hanswer
  cases hk : (l.listing b).getLast? with
  | none =>
    rw [hk] at hanswer
    exact .inl ⟨rfl, (Except.ok.inj hanswer).symm⟩
  | some k =>
    rw [hk, Option.toList_some, List.map_singleton, Fault.gather] at hanswer
    cases he : entryAt b k.2 with
    | error f =>
      rw [he] at hanswer
      exact absurd hanswer (by simp [bind, Except.bind, Except.map])
    | ok e =>
      rw [he] at hanswer
      exact .inr ⟨k, e, rfl, he, (Except.ok.inj hanswer).symm⟩

private theorem fst_le_last {k k' : Int × Text} (hk : (l.listing b).getLast? = some k) (hk' : k' ∈ l.listing b) :
    k'.1 ≤ k.1 := by
  have hsorted : (l.listing b).Pairwise fun a c => keyLe a c = true :=
    List.pairwise_mergeSort keyLe_trans keyLe_total _
  obtain ⟨front, hfront⟩ := List.getLast?_eq_some_iff.mp hk
  rw [hfront] at hsorted hk'
  rcases List.mem_append.mp hk' with hm | hm
  · exact fst_le_of_keyLe ((List.pairwise_append.mp hsorted).2.2 k' hm k List.mem_cons_self)
  · rw [List.mem_singleton.mp hm]

def IsNamed (e : Entry) : Prop := ∃ id, e.id = .text id ∧ id ≠ []

/-- The objects of a bucket are lines of entries of a kind, each under its key, and the keys of given entries are among
theirs. -/
structure Dates (p : Instant → Prop) (l : ObjectLog) (es : List Entry) (w : Objects) (b : Bucket) : Prop where
  serves : w.service.Serves l.bucket b
  lines : ∀ key bs, b.get? key = some bs → ∃ r : Line, r.octets = bs ∧ l.keyFor r.entry = .ok key ∧
    p r.entry.createdAt ∧ IsNamed r.entry
  dated : ∀ e ∈ es, p e.createdAt
  placed : ∀ e ∈ es, IsNamed e ∧ ∃ key ∈ b.keys, l.keyFor e = .ok key
  ids : ∀ n, w.ids.nth n ≠ []

private theorem Dates.of_serves {es : List Entry} (h : Dates p l es w b) {w' : Objects}
    (hs : w'.service.Serves l.bucket b) (hids : ∀ n, w'.ids.nth n ≠ []) : Dates p l es w' b :=
  ⟨hs, h.lines, h.dated, h.placed, hids⟩

private theorem milli_of_told {e : Entry} {key : Text} {ms : Int} (hkey : l.keyFor e = .ok key)
    (hs : e.createdAt.IsSharp) (hn : IsNamed e) (ht : l.millisOfKey? key = some ms) : ms = e.createdAt.milli := by
  obtain ⟨id, hid, hne⟩ := hn
  have htold := millisOfKey?_keyFor hkey hs.hasUtc.epochMillis_eq_milli (by rw [hid]; rfl) hne
  rw [ht] at htold
  split at htold
  · exact Option.some.inj htold
  · exact absurd htold (by simp)

end ObjectLog

section Stores

variable {p : Instant → Prop} (hsharp : ∀ t, p t → t.IsSharp)
  (hlater : ∀ t u, p t → t.shift Duration.perMilli = .ok u → p u)

include hsharp hlater

/-- A store in memory holds entries of a kind, as they were created. -/
theorem Memory.almanac : Almanac Memory.store Memory.strike p (fun _ => True) fun es m =>
    m.entries = es ∧ ∀ e ∈ es, p e.createdAt where
  later := hlater
  dated h := h.2
  strike _ h := h
  findLast {es m} h := by
    obtain ⟨rfl, hp⟩ := h
    have haware : ∀ e ∈ m.entries, e.createdAt.isAware = true := fun e he => (hsharp _ (hp e he)).isAware
    refine ⟨⟨Memory.reading_entries _ _, hp⟩, ?_⟩
    intro last hlast
    simp only [Memory.store, Memory.reading] at hlast
    cases hf : m.failures with
    | cons f later => simp [hf] at hlast
    | nil =>
      simp only [hf, Ordered.sort_of_aware haware, Except.ok.injEq] at hlast
      subst hlast
      refine ⟨?_, fun e he _ => Ordered.exists_last_mergeSort haware he⟩
      exact fun l hl => hp l (List.mem_mergeSort.mp (List.mem_of_getLast? hl))
  create {es m} h d hd := by
    obtain ⟨rfl, hp⟩ := h
    cases hc : (Memory.store.create d m).1 with
    | error f => exact .inl ⟨⟨f, rfl⟩, Memory.create_error hc, hp⟩
    | ok e =>
      obtain ⟨he, hentries⟩ := Memory.create_ok hc
      have hat : e.createdAt = d.createdAt := by rw [he]; rfl
      refine .inr ⟨e, rfl, hat, hentries, ?_⟩
      exact List.forall_mem_append.mpr ⟨hp, List.forall_mem_singleton.mpr (hat ▸ hd)⟩

namespace FileLog

/-- A log file holds the lines of entries of a kind. -/
theorem almanac (path : Text) : Almanac (store path).interrupted Interrupted.strike p (fun _ => True) fun es s =>
    ∃ rows, Dates p path rows es s where
  later := hlater
  dated := fun ⟨_, h⟩ => h.dated
  strike _ := fun ⟨rows, h⟩ => ⟨rows, h.content, h.entries, h.dated⟩
  findLast {es s} := by
    rintro ⟨rows, h⟩
    have hsharps : ∀ r ∈ rows, p r.entry.createdAt := fun r hr => h.dated _ (h.entries ▸ List.mem_map_of_mem hr)
    rcases Interrupted.attempt_cases (store path).findLast s with ⟨⟨f, hf⟩, hw⟩ | ⟨ha, hw⟩
    · refine ⟨⟨rows, hw ▸ h.content, h.entries, h.dated⟩, ?_⟩
      intro last hlast
      exact absurd (hf.symm.trans hlast) (by simp)
    · refine ⟨⟨rows, hw ▸ h.content, h.entries, h.dated⟩, ?_⟩
      intro last hlast
      have hfound : ((store path).findLast s.world).1 = .ok last := ha.symm.trans hlast
      have hanswers := answers_of_lines h.content (isDated_of_findLast h.content hfound)
      rw [hanswers.findLast, Except.ok.injEq] at hfound
      subst hfound
      have haware : ∀ e ∈ rows.map Line.shown, e.createdAt.isAware = true := by
        intro e he
        obtain ⟨r, -, rfl⟩ := List.mem_map.mp he
        exact r.isAware_shown
      constructor
      · intro l hl
        obtain ⟨r, hr, rfl⟩ := List.mem_map.mp (List.mem_mergeSort.mp (List.mem_of_getLast? hl))
        rw [Line.createdAt_shown (hsharp _ (hsharps r hr))]
        exact hsharps r hr
      · intro e he _
        obtain ⟨r, hr, rfl⟩ := List.mem_map.mp (h.entries ▸ he)
        obtain ⟨l, hl, hle⟩ := Ordered.exists_last_mergeSort haware (List.mem_map_of_mem hr)
        rw [Line.createdAt_shown (hsharp _ (hsharps r hr))] at hle
        exact ⟨l, hl, hle⟩
  create {es s} := by
    rintro ⟨rows, h⟩ d hd
    rcases Interrupted.attempt_cases ((store path).create d) s with ⟨hf, hw⟩ | ⟨ha, hw⟩
    · exact .inl ⟨hf, rows, hw ▸ h.content, h.entries, h.dated⟩
    · rcases create_cases h.content d with ⟨⟨f, hf⟩, hdisk⟩ | ⟨r, he, hok, hread⟩
      · exact .inl ⟨⟨f, ha.trans hf⟩, rows, hw ▸ hdisk ▸ h.content, h.entries, h.dated⟩
      · have hat : r.entry.createdAt = d.createdAt := by rw [he]; rfl
        refine .inr ⟨r.entry, ha.trans hok, hat, rows ++ [r], ?_, ?_, ?_⟩
        · rw [List.flatMap_append, List.flatMap_singleton]
          exact hw ▸ hread
        · rw [List.map_append, h.entries, List.map_singleton]
        · exact List.forall_mem_append.mpr ⟨h.dated, List.forall_mem_singleton.mpr (hat ▸ hd)⟩

end FileLog

namespace ObjectLog

/-- A bucket holds the lines of entries of a kind, and finds those from 1970 on. -/
theorem almanac (l : ObjectLog) : Almanac l.store Objects.strike p (Instant.epochWall ≤ ·) fun es w =>
    ∃ b, Dates p l es w b where
  later := hlater
  dated := fun ⟨_, h⟩ => h.dated
  strike staged := fun ⟨b, h⟩ => ⟨b, ⟨h.serves.pageSize, h.serves.bucket, h.serves.only⟩, h.lines, h.dated, h.placed, h.ids⟩
  findLast {es w} := by
    rintro ⟨b, h⟩
    have htells := tells_findLast h.serves
    refine ⟨⟨b, h.of_serves htells.serves ?_⟩, ?_⟩
    · show ∀ n, (l.findLast w).2.ids.nth n ≠ []
      rw [htells.ids]
      exact h.ids
    intro last hlast
    have hlisted : ∀ e ∈ es, Instant.epochWall ≤ e.createdAt.wall →
        ∃ key, (e.createdAt.milli, key) ∈ l.listing b := by
      intro e he hsince
      obtain ⟨⟨id, hid, hne⟩, key, hkey, hfor⟩ := h.placed e he
      have hs := hsharp _ (h.dated e he)
      have htold := millisOfKey?_keyFor hfor hs.hasUtc.epochMillis_eq_milli (by rw [hid]; rfl) hne
      have hmilli : 0 ≤ e.createdAt.milli := by
        rw [Instant.milli_nonneg_iff, hs.moment_eq]
        exact_mod_cast hsince
      rw [if_pos hmilli] at htold
      exact ⟨key, mem_listing.mpr ⟨hkey, htold⟩⟩
    rcases findLast_cases h.serves hlast with ⟨hnone, rfl⟩ | ⟨k, e, hk, hentry, rfl⟩
    · refine ⟨fun l hl => absurd hl (by simp), ?_⟩
      intro e he hsince
      obtain ⟨key, hm⟩ := hlisted e he hsince
      rw [List.getLast?_eq_none_iff.mp hnone] at hm
      exact absurd hm List.not_mem_nil
    · obtain ⟨hkey, htold⟩ := mem_listing.mp (List.mem_of_getLast? hk)
      obtain ⟨bs, hbs⟩ := Bucket.exists_get?_of_mem_keys hkey
      obtain ⟨r, rfl, hfor, hp, hn⟩ := h.lines _ _ hbs
      rw [entryAt, hbs, Option.getD_some] at hentry
      obtain ⟨-, rfl⟩ := FileLog.Line.eq_shown_of_readObject hentry
      have hat := Line.createdAt_shown (hsharp _ hp)
      refine ⟨fun e he => Option.some.inj he ▸ hat ▸ hp, ?_⟩
      intro e he hsince
      refine ⟨r.shown, rfl, ?_⟩
      obtain ⟨key, hm⟩ := hlisted e he hsince
      have hle := fst_le_last hk hm
      rw [milli_of_told hfor (hsharp _ hp) hn htold] at hle
      rw [hat, (hsharp _ (h.dated e he)).moment_eq_milli, (hsharp _ hp).moment_eq_milli]
      exact Int.add_le_add_left (Int.mul_le_mul_of_nonneg_right hle (by decide)) _
  create {es w} := by
    rintro ⟨b, h⟩ d hd
    obtain ⟨hids, hcases⟩ := create_cases h.serves d
    have hproper : ∀ n, (l.create d w).2.ids.nth n ≠ [] := by
      rw [hids]
      exact h.ids
    rcases hcases with ⟨hf, hserves⟩ | ⟨r, key, he, hkey, hok, hserves⟩
    · exact .inl ⟨hf, b, h.of_serves hserves hproper⟩
    · have hat : r.entry.createdAt = d.createdAt := by rw [he]; rfl
      have hnamed : IsNamed r.entry := ⟨_, by rw [he]; rfl, h.ids _⟩
      refine .inr ⟨r.entry, hok, hat, b.put key r.octets, hserves, ?_, ?_, ?_, hproper⟩
      · intro key' bs hbs
        by_cases hk : key = key'
        · rw [← hk, Bucket.get?_put_self] at hbs
          exact ⟨r, Option.some.inj hbs, hk ▸ hkey, hat ▸ hd, hnamed⟩
        · rw [Bucket.get?_put_of_ne hk] at hbs
          exact h.lines key' bs hbs
      · exact List.forall_mem_append.mpr ⟨h.dated, List.forall_mem_singleton.mpr (hat ▸ hd)⟩
      · refine List.forall_mem_append.mpr ⟨?_, List.forall_mem_singleton.mpr
          ⟨hnamed, key, Bucket.mem_keys_put.mpr (.inl rfl), hkey⟩⟩
        intro e hm
        obtain ⟨hn, key', hk, hfor⟩ := h.placed e hm
        exact ⟨hn, key', Bucket.mem_keys_put.mpr (.inr hk), hfor⟩

end ObjectLog

end Stores

end AuditTrail
