import AuditTrail.Proofs.Storage.BucketReads
import AuditTrail.Proofs.Storage.EntryKeys

/-!
# A bucket as a log

A bucket keeps the lines of a log when it holds each line's octets under the key of its entry, and nothing else
(`ObjectLog.Keeps`). Whatever is asked for is then found among the entries of the lines, by their keys up to the
millisecond and exactly by the entries themselves (`ObjectLog.Keeps.answers`). A creation in a bucket either fails
and leaves it as it was, or puts one more line (`ObjectLog.create_cases`).
-/

namespace AuditTrail

open FileLog (Line)

/-- The ids to come are texts without lone surrogates, and not empty. -/
def IdSource.IsProper (s : IdSource) : Prop := ∀ n, (s.nth n).isWellFormed = true ∧ s.nth n ≠ []

theorem IdSource.isProper_ofNumbers (given : List Nat) : (ofNumbers given).IsProper := by
  intro n
  have hlen : ((ofNumbers given).nth n).length = 32 := Text.length_hex 32 _
  refine ⟨Canonical.isWellFormed_of_forall_lt fun c hc => ?_, ?_⟩
  · have hv := Text.val_of_mem_hex hc
    omega
  · intro he
    rw [he] at hlen
    exact absurd hlen (by decide)

namespace FileLog.Line

theorem isDated_of_sinceEpoch {r : Line} (h : Instant.epochWall ≤ r.utc.wall) : r.IsDated := by
  rw [IsDated, Calendar.four_digits_iff, Nat.le_div_iff_mul_le (by decide)]
  simp only [Instant.epochWall, Duration.perDay, Duration.perHour, Duration.perSecond] at h ⊢
  omega

theorem IsKeyed.isDated {r : Line} (h : r.IsKeyed) : r.IsDated := isDated_of_sinceEpoch h.sinceEpoch

theorem readObject_octets (r : Line) (h : r.IsDated) : ObjectLog.readObject r.octets = .ok r.shown := by
  rw [ObjectLog.readObject, r.readUtf8_octets]
  exact readLine_octets h

theorem hasUtc_entry (r : Line) : r.entry.createdAt.HasUtc := ⟨r.isAware_entry, r.utc, r.toUtc_eq⟩

theorem moment_shown_millis (r : Line) :
    r.shown.createdAt.moment = Instant.epochWall + Duration.perMilli * r.millis := by
  rw [r.moment_shown, r.moment_entry, millis]
  simp only [Duration.perMilli, Instant.epochWall, Duration.perDay, Duration.perHour, Duration.perSecond]
  omega

end FileLog.Line

namespace Bucket

theorem keys_put {key : Text} {b : Bucket} (h : key ∉ b.keys) (bs : List UInt8) :
    (b.put key bs).keys.Perm (key :: b.keys) := by
  induction b with
  | nil => exact .refl _
  | cons o rest ih =>
    obtain ⟨hne, hrest⟩ := not_or.mp fun hm => h (List.mem_cons.mpr hm)
    rw [put, if_neg (Ne.symm hne)]
    split
    · exact .refl _
    · exact ((ih hrest).cons o.1).trans (.swap key o.1 (keys rest))

end Bucket

namespace ObjectLog

/-- A bucket holds the octets of each line under the key of its entry, and nothing else. -/
structure Keeps (l : ObjectLog) (rows : List Line) (b : Bucket) : Prop where
  keyed : ∀ r ∈ rows, r.IsKeyed
  increasing : rows.Pairwise fun q r => q.millis < r.millis
  keys : b.keys.Perm (rows.map l.keyOf)
  octets : ∀ r ∈ rows, b.get? (l.keyOf r) = some r.octets

theorem Keeps.nil (l : ObjectLog) : l.Keeps [] [] :=
  ⟨fun _ hr => absurd hr List.not_mem_nil, .nil, .refl [], fun _ hr => absurd hr List.not_mem_nil⟩

theorem Keeps.put {l : ObjectLog} {rows rows' : List Line} {b : Bucket} (h : l.Keeps rows b) {r : Line}
    (hr : r.IsKeyed) (hp : rows'.Perm (r :: rows)) (hi : rows'.Pairwise fun q r => q.millis < r.millis) :
    l.Keeps rows' (b.put (l.keyOf r) r.octets) := by
  have hkeyed : ∀ q ∈ r :: rows, q.IsKeyed := List.forall_mem_cons.mpr ⟨hr, h.keyed⟩
  have hdistinct : (r :: rows).Pairwise fun q r => q.millis ≠ r.millis :=
    (hp.pairwise_iff fun hne => Ne.symm hne).mp (hi.imp fun hlt => by omega)
  have hkey : ∀ q ∈ rows, l.keyOf r ≠ l.keyOf q := by
    intro q hq he
    exact (List.pairwise_cons.mp hdistinct).1 q hq (keyOf_injective l hr (h.keyed q hq) he)
  refine ⟨fun q hq => hkeyed q (hp.mem_iff.mp hq), hi, ?_, ?_⟩
  · have hnew : l.keyOf r ∉ b.keys := by
      intro hm
      obtain ⟨q, hq, he⟩ := List.mem_map.mp (h.keys.mem_iff.mp hm)
      exact hkey q hq he.symm
    exact ((Bucket.keys_put hnew r.octets).trans (h.keys.cons _)).trans (hp.map l.keyOf).symm
  · intro q hq
    rcases List.mem_cons.mp (hp.mem_iff.mp hq) with rfl | hm
    · exact Bucket.get?_put_self _ _ _
    · rw [Bucket.get?_put_of_ne (hkey q hm), h.octets q hm]

theorem Keeps.concat {l : ObjectLog} {rows : List Line} {b : Bucket} (h : l.Keeps rows b) {r : Line} (hr : r.IsKeyed)
    (hlt : ∀ q ∈ rows, q.millis < r.millis) : l.Keeps (rows ++ [r]) (b.put (l.keyOf r) r.octets) := by
  apply h.put hr (List.perm_append_singleton r rows)
  rw [List.pairwise_append]
  refine ⟨h.increasing, List.pairwise_singleton _ r, ?_⟩
  intro q hq r' hr'
  rw [List.mem_singleton.mp hr']
  exact hlt q hq

private theorem inRange_picked {start finish : Instant} {p : Int → Bool} (rows : List Line)
    (hp : ∀ r : Line, start.moment ≤ r.shown.createdAt.moment → r.shown.createdAt.moment ≤ finish.moment →
      p r.millis = true) :
    Ordered.inRange start finish ((rows.filter fun r => p r.millis).map Line.shown) =
      Ordered.inRange start finish (rows.map Line.shown) := by
  simp only [Ordered.inRange, List.filter_map, List.filter_filter]
  congr 1
  apply List.filter_congr
  intro r _
  rw [Bool.and_eq_left_iff_imp]
  simp only [Function.comp, Bool.and_eq_true, decide_eq_true_eq]
  intro h
  exact hp r h.1 h.2

private theorem earlier_picked {t : Instant} {p : Int → Bool} (rows : List Line)
    (hp : ∀ r : Line, r.shown.createdAt.moment < t.moment → p r.millis = true) :
    Ordered.earlier t ((rows.filter fun r => p r.millis).map Line.shown) =
      Ordered.earlier t (rows.map Line.shown) := by
  simp only [Ordered.earlier, List.filter_map, List.filter_filter]
  congr 1
  apply List.filter_congr
  intro r _
  rw [Bool.and_eq_left_iff_imp]
  simp only [Function.comp, decide_eq_true_eq]
  exact hp r

section Answering

variable {l : ObjectLog} {rows : List Line} {b : Bucket} (h : l.Keeps rows b)

include h

private theorem Keeps.listing : l.listing b = rows.map fun r => (r.millis, l.keyOf r) := by
  have hroot : ObjectService.keysUnder l.root b = b.keys := by
    rw [ObjectService.keysUnder, List.filter_eq_self]
    intro k hk
    obtain ⟨r, -, rfl⟩ := List.mem_map.mp (h.keys.mem_iff.mp hk)
    rw [keyOf, List.append_assoc, List.append_assoc, List.append_assoc, Text.dropFront?_append, Option.isSome_some]
  rw [ObjectLog.listing, hroot, entryKeys_eq l h.keyed h.increasing h.keys]

private theorem Keeps.entryAt {r : Line} (hr : r ∈ rows) : ObjectLog.entryAt b (l.keyOf r) = .ok r.shown := by
  rw [ObjectLog.entryAt, h.octets r hr, Option.getD_some]
  exact r.readObject_octets (h.keyed r hr).isDated

omit h in
/-- The lines whose milliseconds are in the range of a question have all of its answer. -/
private theorem exists_ranged (l : ObjectLog) (q : Question) (rows : List Line) : ∃ picked, picked ⊆ rows ∧
    (q.ranged (rows.map fun r => (r.millis, l.keyOf r))).map (·.2) = picked.map l.keyOf ∧
      q.inRange (picked.map Line.shown) = q.inRange (rows.map Line.shown) := by
  simp only [Question.ranged, Question.inRange]
  cases q.range? with
  | none => exact ⟨rows, List.Subset.refl _, List.map_map, rfl⟩
  | some ends =>
    refine ⟨rows.filter fun r => ends.1.milli ≤ r.millis && r.millis ≤ ends.2.milli, List.filter_sublist.subset, ?_, ?_⟩
    · dsimp only
      rw [List.filter_map, List.map_map]
      rfl
    · refine inRange_picked (p := fun ms => ends.1.milli ≤ ms && ms ≤ ends.2.milli) rows fun r hle hge => ?_
      have hm := r.moment_shown_millis
      rw [Bool.and_eq_true, decide_eq_true_eq, decide_eq_true_eq]
      simp only [Instant.milli, Duration.perMilli] at hm ⊢
      omega

/-- A question that no entry settles is answered from the lines that it visits. -/
private theorem Keeps.answer_of_open {q : Question} (ho : q.isSettledBy = fun _ => false) {picked : List Line}
    (hp : picked ⊆ rows) (hv : q.visits (l.listing b) = picked.map l.keyOf)
    (hsame : q.pick (picked.map Line.shown) = q.pick (rows.map Line.shown)) :
    l.answer b q = .ok (q.pick (rows.map Line.shown)) := by
  rw [ObjectLog.answer, ho, hv, Fault.gather_map_of_open fun r hr => h.entryAt (hp hr), Except.map, hsame]

/-- A bucket answers from the lines that it keeps. -/
private theorem Keeps.answer (q : Question) : l.answer b q = .ok (q.pick (rows.map Line.shown)) := by
  cases q with
  | last =>
    refine h.answer_of_open rfl (?_ : rows.getLast?.toList ⊆ rows) ?_ ?_
    · exact fun r hr => List.mem_of_getLast? (Option.mem_toList.mp hr)
    · rw [Question.visits, h.listing, List.getLast?_map]
      cases rows.getLast? <;> rfl
    · rw [Question.pick, Question.pick, List.getLast?_map, List.getLast?_map]
      cases rows.getLast? <;> rfl
  | justBefore t =>
    -- A row before the instant has its millisecond at most at the instant's, and the last such row is the first one
    -- from the back.
    have hbound : ∀ r : Line, r.shown.createdAt.moment < t.moment → decide (r.millis ≤ t.milli) = true := by
      intro r hlt
      have hm := r.moment_shown_millis
      rw [decide_eq_true_eq]
      simp only [Instant.milli, Duration.perMilli] at hm ⊢
      omega
    have hpick := earlier_picked (p := fun ms => ms ≤ t.milli) rows hbound
    have hvisits : (Question.justBefore t).visits (l.listing b) =
        (rows.filter fun r => r.millis ≤ t.milli).reverse.map l.keyOf := by
      rw [Question.visits, h.listing, List.filter_map, List.map_map, ← List.map_reverse]
      rfl
    have hread : ∀ r ∈ (rows.filter fun r => r.millis ≤ t.milli).reverse,
        ObjectLog.entryAt b (l.keyOf r) = .ok r.shown :=
      fun r hr => h.entryAt (List.mem_of_mem_filter (List.mem_reverse.mp hr))
    obtain ⟨found, hfound, hfind⟩ := Fault.exists_gather_map (Question.justBefore t).isSettledBy hread
    have hback : ∀ es : List Entry, (Ordered.earlier t es).getLast? =
        es.reverse.find? (Question.justBefore t).isSettledBy := by
      intro es
      rw [Ordered.earlier, ← List.head?_reverse, ← List.filter_reverse, List.head?_filter]
      rfl
    have hlast : (Ordered.earlier t found).getLast? = (Ordered.earlier t (rows.map Line.shown)).getLast? := by
      refine (Fault.getLast?_filter_of_gather hfound).trans (hfind.trans ?_)
      rw [← hpick, hback, List.map_reverse]
    rw [ObjectLog.answer, hvisits, hfound]
    exact congrArg (fun e? => Except.ok e?.toList) hlast
  | between start finish =>
    obtain ⟨picked, hp, hkeys, hsame⟩ := exists_ranged l (.between start finish) rows
    exact h.answer_of_open rfl hp (h.listing ▸ hkeys) hsame
  | ofType eventType start finish =>
    obtain ⟨picked, hp, hkeys, hsame⟩ := exists_ranged l (.ofType eventType start finish) rows
    exact h.answer_of_open rfl hp (h.listing ▸ hkeys) (congrArg (List.filter _) hsame)
  | all =>
    obtain ⟨picked, hp, hkeys, hsame⟩ := exists_ranged l .all rows
    exact h.answer_of_open rfl hp (h.listing ▸ hkeys) hsame

variable {w : Objects} (hs : w.service.Serves l.bucket b)

include hs

theorem Keeps.findLast : l.Tells b w (.ok (rows.map Line.shown).getLast?) (l.findLast w) := by
  have htells := tells_findLast hs
  rwa [h.answer, Except.map, Question.pick, Option.head?_toList] at htells

private theorem Keeps.findJustBefore {t : Instant} (ht : t.HasUtc) :
    l.Tells b w (.ok (Ordered.earlier t (rows.map Line.shown)).getLast?) (l.findJustBefore t w) := by
  have htells := tells_findJustBefore hs ht
  rwa [h.answer, Except.map, Question.pick, Option.head?_toList] at htells

/-- A bucket of a calm service answers from the lines that it keeps. -/
theorem Keeps.answers (hc : w.service.IsCalm) : l.store.Answers w (rows.map Line.shown) where
  all := h.answer .all ▸ (tells_all hs).calm hc
  findLast := (h.findLast hs).calm hc
  findBetween start finish hu hv := h.answer (.between start finish) ▸ (tells_findBetween hs hu hv).calm hc
  findJustBefore _ ht := (h.findJustBefore hs ht).calm hc

end Answering

/-- The key and the octets that an entry is put as. -/
def prepared (l : ObjectLog) (e : Entry) : Except Fault (Text × List UInt8) := do
  let stamp ← Stamp.write e.createdAt
  let details ← Canonical.toJson e.details
  let key ← l.keyFor e
  let body ← Canonical.encodeBytes (.map (e.recordFields details stamp))
  pure (key, body)

private theorem create_of_error {l : ObjectLog} {d : Draft} {w : Objects} {f : Fault}
    (h : l.prepared (d.withId (.text w.ids.next)) = .error f) :
    l.create d w = (.error f, { w with ids := w.ids.take }) := by
  rw [prepared] at h
  simp only [create, h]

private theorem create_of_ok {l : ObjectLog} {d : Draft} {w : Objects} {key : Text} {bs : List UInt8}
    (h : l.prepared (d.withId (.text w.ids.next)) = .ok (key, bs)) :
    l.create d w = attempt .writing (fun s =>
      ((s.put l.bucket key bs).1.map fun _ => d.withId (.text w.ids.next), (s.put l.bucket key bs).2))
        { w with ids := w.ids.take } := by
  rw [prepared] at h
  simp only [create, h]

private theorem prepared_eq_ok {l : ObjectLog} {e : Entry} {key : Text} {bs : List UInt8}
    (h : l.prepared e = .ok (key, bs)) :
    l.keyFor e = .ok key ∧ ∃ r : Line, r.entry = e ∧ r.octets = bs := by
  obtain ⟨stamp, hstamp, h⟩ := Fault.bind_eq_ok_iff.mp h
  obtain ⟨details, hdetails, h⟩ := Fault.bind_eq_ok_iff.mp h
  obtain ⟨key', hkey, h⟩ := Fault.bind_eq_ok_iff.mp h
  obtain ⟨body, hbody, h⟩ := Fault.bind_eq_ok_iff.mp h
  obtain ⟨rfl, rfl⟩ := Prod.mk.inj (Except.ok.inj h)
  have hrecord : FileLog.recordBytes e = .ok body := by
    rw [FileLog.recordBytes, hstamp, hdetails]
    exact hbody
  exact ⟨hkey, Line.exists_of_recordBytes hrecord⟩

section Creating

variable {l : ObjectLog} {b : Bucket} {w : Objects} (hs : w.service.Serves l.bucket b)

include hs

/-- A creation fails and leaves the bucket as it was, or puts the line of its entry. -/
theorem create_cases (d : Draft) :
    (l.create d w).2.ids = w.ids.take ∧
      (((∃ f, (l.create d w).1 = .error f) ∧ (l.create d w).2.service.Serves l.bucket b) ∨
        ∃ (r : Line) (key : Text), r.entry = d.withId (.text w.ids.next) ∧ l.keyFor r.entry = .ok key ∧
          (l.create d w).1 = .ok r.entry ∧ (l.create d w).2.service.Serves l.bucket (b.put key r.octets)) := by
  cases hp : l.prepared (d.withId (.text w.ids.next)) with
  | error f =>
    rw [create_of_error hp]
    exact ⟨rfl, .inl ⟨⟨f, rfl⟩, hs⟩⟩
  | ok prepared =>
    obtain ⟨key, bs⟩ := prepared
    obtain ⟨hkey, r, he, rfl⟩ := prepared_eq_ok hp
    rw [create_of_ok hp, attempt]
    refine ⟨rfl, ?_⟩
    rcases (ObjectService.put_cases hs key r.octets).1 with ⟨⟨f, hf⟩, hserves⟩ | ⟨hok, hserves⟩
    · refine .inl ⟨?_, hserves⟩
      simp only [hf, Except.map]
      cases f with
      | service f => exact ⟨_, rfl⟩
      | host f => exact ⟨_, rfl⟩
    · refine .inr ⟨r, key, he, he ▸ hkey, ?_, hserves⟩
      simp only [hok, Except.map, he]

theorem create_at_key (hc : w.service.IsCalm) {d : Draft} {r : Line} {key : Text} (hkey : l.keyFor r.entry = .ok key)
    (he : r.entry = d.withId (.text w.ids.next)) :
    ∃ s, l.create d w = (.ok r.entry, ⟨s, w.ids.take⟩) ∧ s.Serves l.bucket (b.put key r.octets) ∧ s.IsCalm := by
  obtain ⟨hput, hcalm⟩ := ObjectService.put_cases hs key r.octets
  obtain ⟨hok, hcalm⟩ := hcalm hc
  have hserves : (w.service.put l.bucket key r.octets).2.Serves l.bucket (b.put key r.octets) := by
    rcases hput with ⟨⟨f, hf⟩, -⟩ | ⟨-, hserves⟩
    · exact absurd (hok.symm.trans hf) (by simp)
    · exact hserves
  refine ⟨_, ?_, hserves, hcalm⟩
  exact (Entry.isWrittenAs_of_recordBytes r.recordBytes_eq).bucket l d w key _ he.symm hkey (Prod.ext hok rfl)

theorem create_line (hc : w.service.IsCalm) {d : Draft} {r : Line} (hr : r.IsKeyed)
    (he : r.entry = d.withId (.text w.ids.next)) :
    ∃ s, l.create d w = (.ok r.entry, ⟨s, w.ids.take⟩) ∧ s.Serves l.bucket (b.put (l.keyOf r) r.octets) ∧ s.IsCalm :=
  create_at_key hs hc (keyFor_line l hr) he

end Creating

end ObjectLog

end AuditTrail
