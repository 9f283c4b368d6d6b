import AuditTrail.Proofs.Canonical.Copying
import AuditTrail.Proofs.Storage.BucketLog

/-!
# Three stores as one

A store in memory, a log file and a bucket that were given the same entries, in whatever order, hold the same lines
(`HoldSame`). They then find alike entries, whatever is asked for (`agree_of_creations`).
-/

namespace AuditTrail

open FileLog (Line)

namespace Store

variable {W : Type}

/-- Creates drafts one after the other, up to the first fault. -/
def createAll (store : Store W) : List Draft → Op W (List Entry)
  | [], w => (.ok [], w)
  | d :: ds, w =>
    match store.create d w with
    | (.error f, w) => (.error f, w)
    | (.ok e, w) =>
      let rest := store.createAll ds w
      (rest.1.map (e :: ·), rest.2)

private theorem createAll_cons {store : Store W} {d : Draft} {ds : List Draft} {w v u : W} {e : Entry} {es : List Entry}
    (h : store.create d w = (.ok e, v)) (hs : store.createAll ds v = (.ok es, u)) :
    store.createAll (d :: ds) w = (.ok (e :: es), u) := by
  rw [createAll, h]
  simp only [hs, Except.map]

end Store

/-- A draft that all stores keep alike: its entry is storable with any proper id, and its instant is a whole
millisecond from 1970 on. -/
structure Draft.IsAligned (d : Draft) : Prop where
  storable : ∀ id : Text, id.isWellFormed = true → (d.withId (.text id)).IsStorable
  aware : d.createdAt.isAware = true
  utc : ∃ u, d.createdAt.toUtc = .ok u ∧ u.isWholeMilli = true ∧ Instant.epochWall ≤ u.wall

namespace FileLog.Line

structure IsAligned (r : Line) : Prop extends r.IsKeyed where
  storable : r.entry.IsStorable
  wholeMilli : r.utc.isWholeMilli = true

private theorem IsAligned.moment_shown {r : Line} (h : r.IsAligned) :
    r.shown.createdAt.moment = r.entry.createdAt.moment := by
  show r.utc.truncate.moment = _
  rw [Instant.truncate_of_isWholeMilli h.wholeMilli, Instant.moment_of_toUtc r.toUtc_eq]

private theorem IsAligned.alike {r : Line} (h : r.IsAligned) : r.entry.Alike r.shown where
  toMatches := matches_shown h.storable.isTextual
  aware := ⟨r.isAware_entry, r.isAware_shown⟩
  moment := h.moment_shown

private theorem exists_of_isAligned {d : Draft} (h : d.IsAligned) {id : Text} (hid : id.isWellFormed = true ∧ id ≠ []) :
    ∃ r : Line, r.entry = d.withId (.text id) ∧ r.IsAligned := by
  obtain ⟨u, hu, hm, hw⟩ := h.utc
  have hs := h.storable id hid.1
  obtain ⟨r, he, rfl⟩ := exists_of_encodable (e := d.withId (.text id)) h.aware hu hs.encodable_fields
  exact ⟨r, he, ⟨⟨id, by rw [he]; rfl, hid.2⟩, hw⟩, he ▸ hs, hm⟩

end FileLog.Line

private theorem Entry.Alike.refl {e : Entry} (h : e.createdAt.isAware = true) : e.Alike e :=
  ⟨⟨rfl, rfl, rfl, rfl, rfl, rfl, rfl⟩, ⟨h, h⟩, rfl⟩

def FileLog.Line.ordered (lines : List Line) : List Line :=
  lines.mergeSort fun q r => Ordered.le q.entry r.entry

namespace FileLog.Line

private theorem perm_ordered (lines : List Line) : (ordered lines).Perm lines := List.mergeSort_perm lines _

private theorem map_entry_ordered (lines : List Line) :
    (ordered lines).map Line.entry = (lines.map Line.entry).mergeSort Ordered.le :=
  List.map_mergeSort fun _ _ _ _ => rfl

private theorem map_shown_ordered {lines : List Line} (h : ∀ r ∈ lines, r.IsAligned) :
    (ordered lines).map Line.shown = (lines.map Line.shown).mergeSort Ordered.le := by
  apply List.map_mergeSort
  intro q hq r hr
  rw [Ordered.le, Ordered.le, (h q hq).moment_shown, (h r hr).moment_shown]

private theorem pairwise_millis_ordered {lines : List Line} (h : ∀ r ∈ lines, r.IsAligned)
    (hd : lines.Pairwise fun q r => q.entry.createdAt.moment ≠ r.entry.createdAt.moment) :
    (ordered lines).Pairwise fun q r => q.millis < r.millis := by
  have hle : (ordered lines).Pairwise fun q r => Ordered.le q.entry r.entry = true :=
    List.pairwise_mergeSort (fun a b c => Ordered.le_trans a.entry b.entry c.entry)
      (fun a b => Ordered.le_total a.entry b.entry) lines
  have hne := ((perm_ordered lines).pairwise_iff fun hqr => Ne.symm hqr).mpr hd
  apply (hle.and hne).imp_of_mem
  intro q r hq hr hqr
  have hsorted : q.entry.createdAt.moment ≤ r.entry.createdAt.moment := of_decide_eq_true hqr.1
  have hdiffer := hqr.2
  rw [← (h q ((perm_ordered lines).mem_iff.mp hq)).moment_shown,
    ← (h r ((perm_ordered lines).mem_iff.mp hr)).moment_shown, q.moment_shown_millis,
    r.moment_shown_millis] at hsorted hdiffer
  simp only [Duration.perMilli] at hsorted hdiffer
  omega

end FileLog.Line

/-- A store in memory, a log file and a bucket hold the same lines, and have ids of one source to come. -/
structure HoldSame (path : Text) (l : ObjectLog) (lines : List Line) (m : Memory) (f : Files) (o : Objects) :
    Prop where
  aligned : ∀ r ∈ lines, r.IsAligned
  distinct : lines.Pairwise fun q r => q.entry.createdAt.moment ≠ r.entry.createdAt.moment
  rows : m.entries = lines.map Line.entry
  reliable : m.failures = []
  content : f.disk.read path = .ok (lines.flatMap Line.bytes)
  bucket : ∃ b, o.service.Serves l.bucket b ∧ l.Keeps (Line.ordered lines) b
  calm : o.service.IsCalm
  ids : f.ids = m.ids ∧ o.ids = m.ids

namespace HoldSame

variable {path : Text} {l : ObjectLog} {lines : List Line} {m : Memory} {f : Files} {o : Objects}

private theorem empty {ids : IdSource} {disk : Disk} (hd : disk.read path = .ok []) {service : ObjectService}
    (hs : service.Serves l.bucket []) (hc : service.IsCalm) :
    HoldSame path l [] (Memory.empty ids) ⟨disk, ids⟩ ⟨service, ids⟩ where
  aligned _ hr := absurd hr List.not_mem_nil
  distinct := .nil
  rows := rfl
  reliable := rfl
  content := hd
  bucket := by
    refine ⟨[], hs, ?_⟩
    rw [Line.ordered, List.mergeSort_nil]
    exact .nil l
  calm := hc
  ids := ⟨rfl, rfl⟩

private theorem create (h : HoldSame path l lines m f o) (hids : m.ids.IsProper) {d : Draft} (hd : d.IsAligned)
    (hn : ∀ r ∈ lines, r.entry.createdAt.moment ≠ d.createdAt.moment) :
    ∃ r m' f' o', r.entry.createdAt = d.createdAt ∧ Memory.create d m = (.ok r.entry, m') ∧
      FileLog.create path d f = (.ok r.entry, f') ∧ l.create d o = (.ok r.entry, o') ∧ m'.ids = m.ids.take ∧
      HoldSame path l (lines ++ [r]) m' f' o' := by
  obtain ⟨r, he, hr⟩ := FileLog.Line.exists_of_isAligned hd (hids m.ids.taken)
  obtain ⟨b, hserves, hkeeps⟩ := h.bucket
  have hat : r.entry.createdAt = d.createdAt := by rw [he]; rfl
  have hmemory : Memory.create d m =
      (.ok r.entry, ⟨m.entries ++ [r.entry], m.failures, m.createCalls + 1, m.ids.take⟩) := by
    obtain ⟨t, ht⟩ := r.exists_encode_details
    have hcopy : d.details.isCopyable = true := by
      rw [he] at ht
      exact Canonical.isCopyable_of_encode _ t ht
    simp only [Memory.create, h.reliable, hcopy, if_true, he]
    rfl
  obtain ⟨disk, hfile, hread⟩ := FileLog.create_line h.content (he.trans (by rw [h.ids.1]; rfl))
  obtain ⟨service, hbucket, hserves', hcalm⟩ := ObjectLog.create_line hserves h.calm hr.toIsKeyed
    (he.trans (by rw [h.ids.2]; rfl))
  have haligned : ∀ q ∈ lines ++ [r], q.IsAligned := by
    intro q hq
    rcases List.mem_append.mp hq with hm | hm
    · exact h.aligned q hm
    · rw [List.mem_singleton.mp hm]
      exact hr
  have hdistinct : (lines ++ [r]).Pairwise fun q r => q.entry.createdAt.moment ≠ r.entry.createdAt.moment := by
    refine List.pairwise_append.mpr ⟨h.distinct, List.pairwise_singleton _ r, ?_⟩
    intro q hq r' hr'
    rw [List.mem_singleton.mp hr', hat]
    exact hn q hq
  refine ⟨r, _, _, _, hat, hmemory, hfile, hbucket, rfl, ?_⟩
  refine ⟨haligned, hdistinct, ?_, h.reliable, ?_, ⟨_, hserves', ?_⟩, hcalm, ?_⟩
  · rw [List.map_append, ← h.rows]
    rfl
  · rw [hread, List.flatMap_append, List.flatMap_singleton]
  · apply hkeeps.put hr.toIsKeyed _ (FileLog.Line.pairwise_millis_ordered haligned hdistinct)
    have hnew := (FileLog.Line.perm_ordered (lines ++ [r])).trans (List.perm_append_singleton r lines)
    exact hnew.trans ((FileLog.Line.perm_ordered lines).symm.cons r)
  · exact ⟨congrArg IdSource.take h.ids.1, congrArg IdSource.take h.ids.2⟩

private theorem createAll (ds : List Draft) : ∀ {lines : List Line} {m : Memory} {f : Files} {o : Objects},
    HoldSame path l lines m f o → m.ids.IsProper → (∀ d ∈ ds, d.IsAligned) →
    (ds.Pairwise fun d e => d.createdAt.moment ≠ e.createdAt.moment) →
    (∀ r ∈ lines, ∀ d ∈ ds, r.entry.createdAt.moment ≠ d.createdAt.moment) →
    ∃ es m' f' o' added, Memory.store.createAll ds m = (.ok es, m') ∧
      (FileLog.store path).createAll ds f = (.ok es, f') ∧ l.store.createAll ds o = (.ok es, o') ∧
      HoldSame path l (lines ++ added) m' f' o' := by
  induction ds with
  | nil =>
    intro lines m f o h _ _ _ _
    exact ⟨[], m, f, o, [], rfl, rfl, rfl, by rwa [List.append_nil]⟩
  | cons d ds ih =>
    intro lines m f o h hids hd hp hn
    obtain ⟨hfirst, hp⟩ := List.pairwise_cons.mp hp
    obtain ⟨r, m', f', o', hat, hm, hf, ho, htake, h'⟩ := h.create hids (hd d List.mem_cons_self)
      fun r hr => hn r hr d List.mem_cons_self
    have hids' : m'.ids.IsProper := by
      rw [htake]
      exact hids
    have hn' : ∀ q ∈ lines ++ [r], ∀ e ∈ ds, q.entry.createdAt.moment ≠ e.createdAt.moment := by
      intro q hq e he
      rcases List.mem_append.mp hq with hm | hm
      · exact hn q hm e (List.mem_cons_of_mem d he)
      · rw [List.mem_singleton.mp hm, hat]
        exact hfirst e he
    obtain ⟨es, m'', f'', o'', added, hms, hfs, hos, h''⟩ := ih h' hids'
      (fun e he => hd e (List.mem_cons_of_mem d he)) hp hn'
    refine ⟨r.entry :: es, m'', f'', o'', r :: added, ?_, ?_, ?_, ?_⟩
    · exact Store.createAll_cons hm hms
    · exact Store.createAll_cons hf hfs
    · exact Store.createAll_cons ho hos
    · rwa [List.append_assoc] at h''

/-- They find alike entries, whatever is asked for. -/
private theorem answersAlike (h : HoldSame path l lines m f o) :
    Memory.store.AnswersAlike m (FileLog.store path) f ∧ Memory.store.AnswersAlike m l.store o ∧
      (FileLog.store path).AnswersAlike f l.store o := by
  have hmemory : Memory.store.Answers m ((Line.ordered lines).map Line.entry) := by
    have haware : ∀ e ∈ m.entries, e.createdAt.isAware = true := by
      rw [h.rows]
      intro e he
      obtain ⟨r, -, rfl⟩ := List.mem_map.mp he
      exact r.isAware_entry
    rw [FileLog.Line.map_entry_ordered, ← h.rows]
    exact Memory.answers h.reliable haware
  have hfile : (FileLog.store path).Answers f ((Line.ordered lines).map Line.shown) := by
    rw [FileLog.Line.map_shown_ordered h.aligned]
    exact FileLog.answers_of_lines h.content fun r hr => (h.aligned r hr).isDated
  have hbucket : l.store.Answers o ((Line.ordered lines).map Line.shown) := by
    obtain ⟨b, hserves, hkeeps⟩ := h.bucket
    exact hkeeps.answers hserves h.calm
  have hread : List.Forall₂ Entry.Alike ((Line.ordered lines).map Line.entry)
      ((Line.ordered lines).map Line.shown) := by
    rw [List.forall₂_map_left_iff, List.forall₂_map_right_iff, List.forall₂_same]
    intro r hr
    exact (h.aligned r ((FileLog.Line.perm_ordered lines).mem_iff.mp hr)).alike
  have hsame : List.Forall₂ Entry.Alike ((Line.ordered lines).map Line.shown)
      ((Line.ordered lines).map Line.shown) := by
    rw [List.forall₂_same]
    intro e he
    obtain ⟨r, -, rfl⟩ := List.mem_map.mp he
    exact .refl r.isAware_shown
  exact ⟨hmemory.alike hfile hread, hmemory.alike hbucket hread, hfile.alike hbucket hsame⟩

end HoldSame

namespace Store

/-- Stores of all three kinds that are empty at first and are given the same drafts find alike entries after every
number of creations. The drafts are at whole milliseconds from 1970 on, no two at the same one, in whatever order. -/
theorem agree_of_creations {ids : IdSource} (hids : ids.IsProper) {path : Text} {disk : Disk}
    (hfile : disk.read path = .ok []) {l : ObjectLog} {service : ObjectService} (hserves : service.Serves l.bucket [])
    (hcalm : service.IsCalm) {ds : List Draft} (hd : ∀ d ∈ ds, d.IsAligned)
    (hp : ds.Pairwise fun d e => d.createdAt.moment ≠ e.createdAt.moment) (n : Nat) :
    ∃ es m f o, Memory.store.createAll (ds.take n) (Memory.empty ids) = (.ok es, m) ∧
      (FileLog.store path).createAll (ds.take n) ⟨disk, ids⟩ = (.ok es, f) ∧
      l.store.createAll (ds.take n) ⟨service, ids⟩ = (.ok es, o) ∧
      Memory.store.AnswersAlike m (FileLog.store path) f ∧ Memory.store.AnswersAlike m l.store o ∧
      (FileLog.store path).AnswersAlike f l.store o := by
  have hempty : HoldSame path l [] (Memory.empty ids) ⟨disk, ids⟩ ⟨service, ids⟩ := .empty hfile hserves hcalm
  obtain ⟨es, m, f, o, added, hm, hf, ho, h⟩ := hempty.createAll (ds.take n) hids
    (fun d hm => hd d (List.mem_of_mem_take hm)) (hp.sublist (List.take_sublist n ds))
    fun r hr => absurd hr List.not_mem_nil
  exact ⟨es, m, f, o, hm, hf, ho, h.answersAlike⟩

/-- Two drafts of which the second is the earlier one, an hour east of UTC, and a bucket that lists one key a page. -/
theorem agree_of_creations_out_of_order :
    let t : Instant := ⟨63900003600124000, some 3600000000, by decide⟩
    let u : Instant := ⟨63900000000123000, some 0, by decide⟩
    let details : Value := .tuple [.float ⟨0x4014000000000000⟩, .null]
    let draft : Instant → Draft := fun createdAt =>
      ⟨.text (lit "login"), .text (lit "api"), .null, details, .text genesisHash, .text (lit "x"), createdAt⟩
    let disk : Disk := (FileLog.openAt (lit "log") default).2.disk
    let log := ObjectLog.ofFolder (lit "b") (lit "audit//")
    let service : ObjectService := ⟨[(lit "b", [])], fun _ => [], 1⟩
    ∃ es m f o, Memory.store.createAll [draft t, draft u] (Memory.empty default) = (.ok es, m) ∧
      (FileLog.store (lit "log")).createAll [draft t, draft u] ⟨disk, default⟩ = (.ok es, f) ∧
      log.store.createAll [draft t, draft u] ⟨service, default⟩ = (.ok es, o) ∧
      Memory.store.AnswersAlike m (FileLog.store (lit "log")) f ∧ Memory.store.AnswersAlike m log.store o ∧
      (FileLog.store (lit "log")).AnswersAlike f log.store o := by
  intro t u details draft disk log service
  have hencodable : ∃ s, Canonical.encode details = .ok s := ⟨_, rfl⟩
  have hgenesis : Value.isProperText (.text genesisHash) = true := by decide +kernel
  have hstorable : ∀ (createdAt : Instant) (id : Text), id.isWellFormed = true →
      ((draft createdAt).withId (.text id)).IsStorable := by
    intro createdAt id hid
    exact ⟨hid, Text.isWellFormed_lit _, Text.isWellFormed_lit _, .inl rfl, hgenesis, Text.isWellFormed_lit _,
      hencodable, rfl⟩
  have ht : t.toUtc = .ok ⟨63900000000124000, some 0, by decide⟩ :=
    Instant.ofWall_eq_ok_iff.mpr ⟨by decide +kernel, rfl⟩
  have hu : u.toUtc = .ok u := Instant.ofWall_eq_ok_iff.mpr ⟨rfl, rfl⟩
  have hd : ∀ d ∈ [draft t, draft u], d.IsAligned := by
    simp only [List.mem_cons, List.not_mem_nil, or_false, forall_eq_or_imp, forall_eq]
    exact ⟨⟨hstorable t, rfl, _, ht, by decide, by decide⟩, ⟨hstorable u, rfl, _, hu, by decide, by decide⟩⟩
  have hp : [draft t, draft u].Pairwise fun d e => d.createdAt.moment ≠ e.createdAt.moment :=
    List.pairwise_pair.mpr (by decide +kernel)
  have hserves : service.Serves log.bucket [] := by
    refine ⟨by decide, rfl, ?_⟩
    intro c hc _
    exact List.mem_singleton.mp hc
  have hfile : disk.read (lit "log") = .ok [] := rfl
  exact agree_of_creations (IdSource.isProper_ofNumbers []) hfile hserves (fun _ => rfl) hd hp 2

end Store

end AuditTrail
