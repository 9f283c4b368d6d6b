import AuditTrail.Proofs.Storage.Questions
import AuditTrail.Proofs.Storage.ServiceCalls

/-!
# What a bucket answers

A log in a bucket answers each question from its listing, which has the keys that tell a millisecond
(`ObjectLog.mem_listing`), and from the objects under the keys that the question visits (`ObjectLog.answer`). Whatever
octets the objects have, and whatever else is in the bucket, its reads tell that answer or a fault of the service
(`ObjectLog.tells_ask`). An object under a key that tells no millisecond changes no answer
(`ObjectLog.answer_put_of_unlisted`).
-/

namespace AuditTrail

namespace Instant

/-- The millisecond of an instant since the start of 1970, rounded down. -/
def milli (t : Instant) : Int := (t.moment - epochWall) / Duration.perMilli

theorem milli_nonneg_iff {t : Instant} : 0 ≤ t.milli ↔ epochWall ≤ t.moment := by
  simp only [milli, Duration.perMilli]
  omega

theorem HasUtc.epochMillis_eq_milli {t : Instant} (h : t.HasUtc) : t.epochMillis = .ok t.milli := by
  obtain ⟨ha, u, hu⟩ := h
  have hw : (u.wall : Int) = t.moment := (ofWall_eq_ok_iff.mp hu).1
  rw [epochMillis, utcMoment, if_pos ha, hu, milli, ← hw]
  rfl

end Instant

namespace Question

/-- An entry settles a search that goes backward in time. -/
def isSettledBy : Question → Entry → Bool
  | justBefore t => fun e => decide (e.createdAt.moment < t.moment)
  | _ => fun _ => false

/-- The keys of the milliseconds that a question is about, its ends included. -/
def ranged (q : Question) (keys : List (Int × Text)) : List (Int × Text) :=
  match q.range? with
  | some (start, finish) => keys.filter fun k => start.milli ≤ k.1 && k.1 ≤ finish.milli
  | none => keys

/-- The keys whose objects are read for a question, one after the other. -/
def visits (q : Question) (keys : List (Int × Text)) : List Text :=
  match q with
  | last => keys.getLast?.toList.map (·.2)
  | justBefore t => ((keys.filter fun k => k.1 ≤ t.milli).map (·.2)).reverse
  | q => (q.ranged keys).map (·.2)

private theorem mem_of_mem_visits {q : Question} {keys : List (Int × Text)} {key : Text} (h : key ∈ q.visits keys) :
    ∃ k ∈ keys, k.2 = key := by
  have hranged : ∀ q : Question, key ∈ (q.ranged keys).map (·.2) → ∃ k ∈ keys, k.2 = key := by
    intro q hm
    obtain ⟨k, hk, rfl⟩ := List.mem_map.mp hm
    rw [ranged] at hk
    split at hk
    · exact ⟨k, List.mem_of_mem_filter hk, rfl⟩
    · exact ⟨k, hk, rfl⟩
  cases q with
  | last =>
    obtain ⟨k, hk, rfl⟩ := List.mem_map.mp h
    exact ⟨k, List.mem_of_getLast? (Option.mem_toList.mp hk), rfl⟩
  | justBefore t =>
    obtain ⟨k, hk, rfl⟩ := List.mem_map.mp (List.mem_reverse.mp h)
    exact ⟨k, List.mem_of_mem_filter hk, rfl⟩
  | between start finish => exact hranged (between start finish) h
  | ofType eventType start finish => exact hranged (ofType eventType start finish) h
  | all => exact hranged all h

end Question

theorem Bucket.mem_keys_of_get? {b : Bucket} {key : Text} {bs : List UInt8} (h : b.get? key = some bs) :
    key ∈ b.keys := by
  obtain ⟨o, ho, -⟩ := Option.map_eq_some_iff.mp h
  have hkey : o.1 = key := by
    have hb := List.find?_some ho
    exact eq_of_beq hb
  exact hkey ▸ List.mem_map_of_mem (List.mem_of_find?_eq_some ho)

theorem Bucket.exists_get?_of_mem_keys {b : Bucket} {key : Text} (h : key ∈ b.keys) : ∃ bs, b.get? key = some bs := by
  obtain ⟨o, ho, rfl⟩ := List.mem_map.mp h
  have hsome : (b.find? fun p => p.1 == o.1).isSome = true := List.find?_isSome.mpr ⟨o, ho, beq_self_eq_true o.1⟩
  obtain ⟨found, hfound⟩ := Option.isSome_iff_exists.mp hsome
  exact ⟨found.2, by rw [get?, hfound, Option.map_some]⟩

theorem Bucket.filterMap_keys_put {α : Type} {g : Text → Option α} {key : Text} (h : g key = none) (bs : List UInt8)
    (b : Bucket) : (b.put key bs).keys.filterMap g = b.keys.filterMap g := by
  induction b with
  | nil => exact List.filterMap_cons_none h
  | cons o rest ih =>
    rw [put]
    split
    · next he => rw [keys, keys, List.map_cons, List.map_cons, he]
    · split
      · exact List.filterMap_cons_none h
      · show List.filterMap g (o.1 :: keys (put key bs rest)) = List.filterMap g (o.1 :: keys rest)
        rw [List.filterMap_cons, List.filterMap_cons, ih]

namespace Entry

theorem isAware_of_ofRecord {v : Value} {e : Entry} (h : ofRecord v = .ok e) : e.createdAt.isAware = true := by
  cases v with
  | map fields =>
    simp only [ofRecord, Fault.bind_eq_ok_iff] at h
    obtain ⟨_, -, _, -, _, -, _, -, _, -, stamp, -, t, ht, h⟩ := h
    have he := Except.ok.inj h
    cases stamp with
    | text s =>
      rw [readStamp, StampReader.read] at ht
      split at ht
      · rw [← he]
        exact Instant.isAware_of_offset (Instant.offset_of_toUtc ht)
      · exact absurd ht (by simp)
    | object name =>
      rw [readStamp] at ht
      split at ht <;> exact absurd ht (by simp)
    | null | bool _ | int _ | float _ | bytes _ | list _ | tuple _ | map _ => exact absurd ht (by simp [readStamp])
  | null | bool _ | int _ | float _ | text _ | bytes _ | list _ | tuple _ | object _ =>
    exact absurd h (by simp [ofRecord])

end Entry

namespace ObjectLog

variable {l : ObjectLog} {b : Bucket}

def readObject (bs : List UInt8) : Except Fault Entry := Json.readUtf8 bs >>= Entry.ofRecord

private theorem readBody_eq (bs : List UInt8) : readBody bs = (readObject bs).mapError CallFault.host := by
  rw [readBody, readObject]
  cases Json.readUtf8 bs >>= Entry.ofRecord <;> rfl

private theorem isAware_of_readObject {bs : List UInt8} {e : Entry} (h : readObject bs = .ok e) :
    e.createdAt.isAware = true := by
  obtain ⟨v, -, hv⟩ := Fault.bind_eq_ok_iff.mp h
  exact Entry.isAware_of_ofRecord hv

def entryAt (b : Bucket) (key : Text) : Except Fault Entry := readObject ((b.get? key).getD [])

/-- The keys in a bucket that tell a millisecond, in order. -/
def listing (l : ObjectLog) (b : Bucket) : List (Int × Text) := l.entryKeys (ObjectService.keysUnder l.root b)

def answer (l : ObjectLog) (b : Bucket) (q : Question) : Except Fault (List Entry) :=
  (Fault.gather q.isSettledBy (entryAt b) (q.visits (l.listing b))).map q.pick

theorem isSome_dropFront?_of_millisOfKey? {key : Text} {ms : Int} (h : l.millisOfKey? key = some ms) :
    (Text.dropFront? l.root key).isSome = true := by
  cases hd : Text.dropFront? l.root key with
  | none => simp [millisOfKey?, hd] at h
  | some rest => rfl

/-- The listing has exactly the keys that tell a millisecond. -/
theorem mem_listing {k : Int × Text} : k ∈ l.listing b ↔ k.2 ∈ b.keys ∧ l.millisOfKey? k.2 = some k.1 := by
  rw [listing, entryKeys, List.mem_mergeSort, List.mem_filterMap]
  constructor
  · rintro ⟨key, hkey, hk⟩
    obtain ⟨ms, hms, rfl⟩ := Option.map_eq_some_iff.mp hk
    exact ⟨List.mem_of_mem_filter hkey, hms⟩
  · rintro ⟨hkey, hms⟩
    refine ⟨k.2, List.mem_filter.mpr ⟨hkey, isSome_dropFront?_of_millisOfKey? hms⟩, ?_⟩
    rw [hms, Option.map_some]

private theorem exists_listed_of_mem_visits {q : Question} {key : Text} (h : key ∈ q.visits (l.listing b)) :
    key ∈ b.keys ∧ ∃ ms, l.millisOfKey? key = some ms := by
  obtain ⟨k, hk, rfl⟩ := Question.mem_of_mem_visits h
  exact ⟨(mem_listing.mp hk).1, k.1, (mem_listing.mp hk).2⟩

/-- What is answered was read from listed objects. -/
theorem mem_of_answer {q : Question} {es : List Entry} (h : l.answer b q = .ok es) {e : Entry} (he : e ∈ es) :
    ∃ k ∈ l.listing b, entryAt b k.2 = .ok e := by
  obtain ⟨found, hfound, rfl⟩ := Fault.map_eq_ok_iff.mp h
  obtain ⟨key, hkey, hread⟩ := Fault.mem_of_gather hfound (Question.mem_of_mem_pick he)
  obtain ⟨k, hk, rfl⟩ := Question.mem_of_mem_visits hkey
  exact ⟨k, hk, hread⟩

private theorem answer_ofType {eventType : Value} {start finish : Option Instant} {q : Question}
    (hr : (Question.ofType eventType start finish).range? = q.range?)
    (hp : (∃ a b, q = .between a b) ∨ q = .all) :
    l.answer b (.ofType eventType start finish) =
      (l.answer b q).map fun es => es.filter fun e => e.eventType.same eventType := by
  have hsame : q.isSettledBy = (fun _ => false) ∧ q.visits = (fun keys => (q.ranged keys).map (·.2)) ∧
      q.pick = q.inRange := by
    rcases hp with ⟨a, b, rfl⟩ | rfl <;> exact ⟨rfl, rfl, rfl⟩
  have hvisits : (Question.ofType eventType start finish).visits (l.listing b) =
      (q.ranged (l.listing b)).map (·.2) := by
    show ((Question.ofType eventType start finish).ranged (l.listing b)).map (·.2) = _
    rw [Question.ranged, Question.ranged, hr]
  have hin : (Question.ofType eventType start finish).inRange = q.inRange := by
    funext es
    rw [Question.inRange, Question.inRange, hr]
  rw [answer, answer, hsame.1, hsame.2.1, hsame.2.2, hvisits]
  cases hg : Fault.gather (fun _ => false) (entryAt b) ((q.ranged (l.listing b)).map (·.2)) with
  | error f => exact congrArg (Except.map _) hg
  | ok es =>
    refine (congrArg (Except.map _) hg).trans ?_
    rw [Except.map, Question.pick, hin]
    rfl

private theorem answer_map_head? {q : Question} (hq : ∀ es, ∃ e? : Option Entry, q.pick es = e?.toList) :
    ((l.answer b q).map List.head?).map Option.toList = l.answer b q := by
  rw [answer]
  cases Fault.gather q.isSettledBy (entryAt b) (q.visits (l.listing b)) with
  | error f => rfl
  | ok es =>
    obtain ⟨e?, he⟩ := hq es
    simp only [Except.map, he, Option.head?_toList]

/-- An entry that was got is kept if it is before the instant, or else the next ones are got. -/
def keepOrGoOn (l : ObjectLog) (t : Instant) (keys : List Text) (e : Entry) (s : ObjectService) :
    Except CallFault (Option Entry) × ObjectService :=
  match e.createdAt.before t with
  | .error f => (.error (.host f), s)
  | .ok true => (.ok (some e), s)
  | .ok false => l.getBefore t keys s

section Meeting

variable {s : ObjectService}

theorem meets_listKeys (hs : s.Serves l.bucket b) : s.Meets l.bucket b (.ok (l.listing b)) (l.listKeys s) :=
  (ObjectService.meets_list hs l.root).map l.entryKeys

private theorem meets_andThen_listKeys {α : Type} (hs : s.Serves l.bucket b) {x : Except CallFault α}
    {next : List (Int × Text) → Attempt α}
    (hn : ∀ t : ObjectService, t.Serves l.bucket b → t.Meets l.bucket b x (next (l.listing b) t)) :
    s.Meets l.bucket b x (ObjectService.andThen (l.listKeys s) next) := by
  apply (meets_listKeys hs).andThen (y := fun _ => x)
  intro keys hk t ht _
  obtain rfl := Except.ok.inj hk
  exact hn t ht

theorem meets_getEntry (hs : s.Serves l.bucket b) {key : Text} (hk : key ∈ b.keys) :
    s.Meets l.bucket b ((entryAt b key).mapError CallFault.host) (l.getEntry key s) := by
  obtain ⟨bs, hbs⟩ := Bucket.exists_get?_of_mem_keys hk
  rw [entryAt, hbs, Option.getD_some, ← readBody_eq]
  exact (ObjectService.meets_get hs hbs).bind readBody

private theorem meets_getEntries (keys : List Text) : keys ⊆ b.keys → ∀ s : ObjectService, s.Serves l.bucket b →
    s.Meets l.bucket b ((Fault.gather (fun _ => false) (entryAt b) keys).mapError CallFault.host)
      (l.getEntries keys s) := by
  induction keys with
  | nil =>
    intro _ s hs
    exact .pure hs (.ok [])
  | cons key keys ih =>
    intro hsub s hs
    obtain ⟨hkey, hkeys⟩ := List.cons_subset.mp hsub
    have hstep : l.getEntries (key :: keys) s = ObjectService.andThen (l.getEntry key s) fun e t =>
        ((l.getEntries keys t).1.map (e :: ·), (l.getEntries keys t).2) := by
      rw [getEntries]
      cases l.getEntry key s with
      | mk result t => cases result <;> rfl
    rw [hstep, Fault.mapError_gather_cons]
    exact (meets_getEntry hs hkey).andThen fun e _ t ht _ => (ih hkeys t ht).map (e :: ·)

/-- Entries are got until one is before the instant. -/
private theorem meets_getBefore {t : Instant} (ha : t.isAware = true) (keys : List Text) : keys ⊆ b.keys →
    ∀ s : ObjectService, s.Serves l.bucket b →
      s.Meets l.bucket b (((Fault.gather (Question.justBefore t).isSettledBy (entryAt b) keys).map
        (List.find? (Question.justBefore t).isSettledBy)).mapError CallFault.host) (l.getBefore t keys s) := by
  induction keys with
  | nil =>
    intro _ s hs
    exact .pure hs (.ok none)
  | cons key keys ih =>
    intro hsub s hs
    obtain ⟨hkey, hkeys⟩ := List.cons_subset.mp hsub
    have hstep : l.getBefore t (key :: keys) s = ObjectService.andThen (l.getEntry key s) fun e u =>
        l.keepOrGoOn t keys e u := by
      rw [getBefore]
      cases l.getEntry key s with
      | mk result u => cases result <;> rfl
    rw [hstep, Fault.mapError_find?_gather_cons]
    apply (meets_getEntry hs hkey).andThen
    intro e he u hu _
    have haware := isAware_of_readObject (Fault.mapError_eq_ok_iff.mp he)
    have hsettled : (Question.justBefore t).isSettledBy e = decide (e.createdAt.moment < t.moment) := rfl
    rw [keepOrGoOn, Instant.before_of_aware haware ha, hsettled]
    cases decide (e.createdAt.moment < t.moment) with
    | true => exact .pure hu (.ok (some e))
    | false => exact ih hkeys u hu

end Meeting

/-- A read tells a result: it ends with it, or with a fault of the service, and the bucket and the ids stay as they
are. If the service is calm, it ends with the result and nothing changes. -/
structure Tells {α : Type} (l : ObjectLog) (b : Bucket) (w : Objects) (x : Except Fault α)
    (out : Except Fault α × Objects) : Prop where
  serves : out.2.service.Serves l.bucket b
  ids : out.2.ids = w.ids
  result : (∃ f, out.1 = .error f ∧
    (f.class? = some .storage ∨ ∃ kind text, some (.other text) ∈ w.service.staged kind)) ∨ out.1 = x
  calm : w.service.IsCalm → out = (x, w)

private theorem tells_attempt {α : Type} {w : Objects} {x : Except Fault α} {step : Attempt α}
    (h : w.service.Meets l.bucket b (x.mapError CallFault.host) (step w.service)) (action : RemoteAction) :
    l.Tells b w x (attempt action step w) where
  serves := h.serves
  ids := rfl
  result := by
    rw [attempt]
    rcases h.result with ⟨kind, f, hf, hout⟩ | hout
    · rw [hout]
      cases f with
      | answered reply => exact .inl ⟨_, rfl, .inl rfl⟩
      | unreachable url => exact .inl ⟨_, rfl, .inl rfl⟩
      | other text => exact .inl ⟨_, rfl, .inr ⟨kind, text, hf⟩⟩
    · rw [hout]
      cases x <;> exact .inr rfl
  calm hs := by
    rw [attempt, h.calm hs]
    cases x <;> rfl

private theorem Tells.bind {α β : Type} {w : Objects} {x : Except Fault α} {out : Except Fault α × Objects}
    (h : l.Tells b w x out) (g : α → Except Fault β) : l.Tells b w (x >>= g) (out.1 >>= g, out.2) where
  serves := h.serves
  ids := h.ids
  result := by
    rcases h.result with ⟨f, hout, hf⟩ | hout
    · exact .inl ⟨f, by rw [hout]; rfl, hf⟩
    · exact .inr (by rw [hout])
  calm hs := by rw [h.calm hs]

private theorem Tells.map {α β : Type} {w : Objects} {x : Except Fault α} {out : Except Fault α × Objects}
    (h : l.Tells b w x out) (g : α → β) : l.Tells b w (x.map g) (out.1.map g, out.2) := by
  have hg : ∀ y : Except Fault α, y.map g = y >>= fun a => .ok (g a) := fun y => by cases y <;> rfl
  rw [hg, hg]
  exact h.bind _

private theorem findLast_eq (l : ObjectLog) :
    l.findLast = attempt .readingLast fun s => ObjectService.andThen (l.listKeys s) fun keys t =>
      match keys.getLast? with
      | none => (.ok none, t)
      | some k => ((l.getEntry k.2 t).1.map some, (l.getEntry k.2 t).2) := by
  rw [findLast]
  congr 1
  funext s
  cases l.listKeys s with
  | mk result t => cases result <;> rfl

private theorem findKeys_eq (l : ObjectLog) (p : Int → Bool) :
    l.findKeys p = attempt .readingMany fun s => ObjectService.andThen (l.listKeys s) fun keys t =>
      l.getEntries ((keys.filter fun k => p k.1).map (·.2)) t := by
  rw [findKeys]
  congr 1
  funext s
  cases l.listKeys s with
  | mk result t => cases result <;> rfl

private theorem findJustBefore_eq {l : ObjectLog} {t : Instant} {bound : Int} (hb : t.epochMillis = .ok bound)
    (w : Objects) :
    l.findJustBefore t w = attempt .readingOne (fun s => ObjectService.andThen (l.listKeys s) fun keys u =>
      l.getBefore t ((keys.filter fun k => k.1 ≤ bound).map (·.2)).reverse u) w := by
  rw [findJustBefore, hb]
  dsimp only
  congr 1
  funext s
  cases l.listKeys s with
  | mk result u => cases result <;> rfl

section Telling

variable {w : Objects} (hs : w.service.Serves l.bucket b)

include hs

theorem tells_findLast : l.Tells b w ((l.answer b .last).map List.head?) (l.findLast w) := by
  have hone : ∀ key : Text, ((Fault.gather (fun _ => false) (entryAt b) [key]).map Question.last.pick).map List.head? =
      (entryAt b key).map some := by
    intro key
    rw [Fault.gather]
    cases entryAt b key <;> rfl
  have hsome : ∀ x : Except Fault Entry, (x.map some).mapError CallFault.host = (x.mapError CallFault.host).map some :=
    fun x => by cases x <;> rfl
  rw [findLast_eq]
  apply tells_attempt
  apply meets_andThen_listKeys hs
  intro t ht
  rw [answer, Question.visits]
  cases hk : (l.listing b).getLast? with
  | none => exact .pure ht (.ok none)
  | some k =>
    have hlast : ((Fault.gather Question.last.isSettledBy (entryAt b) [k.2]).map Question.last.pick).map List.head? =
        (entryAt b k.2).map some := hone k.2
    rw [Option.toList_some, List.map_cons, List.map_nil, hlast, hsome]
    exact (meets_getEntry ht (mem_listing.mp (List.mem_of_getLast? hk)).1).map some

theorem tells_findJustBefore {t : Instant} (ht : t.HasUtc) :
    l.Tells b w ((l.answer b (.justBefore t)).map List.head?) (l.findJustBefore t w) := by
  have hpick : (l.answer b (.justBefore t)).map List.head? = (Fault.gather (Question.justBefore t).isSettledBy
      (entryAt b) ((Question.justBefore t).visits (l.listing b))).map
        (List.find? (Question.justBefore t).isSettledBy) := by
    rw [answer]
    cases hg : Fault.gather (Question.justBefore t).isSettledBy (entryAt b)
        ((Question.justBefore t).visits (l.listing b)) with
    | error f => rfl
    | ok es => exact congrArg Except.ok (Option.head?_toList.trans (Fault.getLast?_filter_of_gather hg))
  rw [hpick, findJustBefore_eq ht.epochMillis_eq_milli]
  apply tells_attempt
  apply meets_andThen_listKeys hs
  intro u hu
  exact meets_getBefore ht.1 _ (fun key hk => (exists_listed_of_mem_visits (q := .justBefore t) hk).1) u hu

private theorem tells_findKeys (p : Int → Bool) :
    l.Tells b w (Fault.gather (fun _ => false) (entryAt b) (((l.listing b).filter fun k => p k.1).map (·.2)))
      (l.findKeys p w) := by
  rw [findKeys_eq]
  apply tells_attempt
  apply meets_andThen_listKeys hs
  intro t ht
  apply meets_getEntries _ _ t ht
  intro key hkey
  obtain ⟨k, hk, rfl⟩ := List.mem_map.mp hkey
  exact (mem_listing.mp (List.mem_of_mem_filter hk)).1

theorem tells_findBetween {start finish : Instant} (ha : start.HasUtc) (hb : finish.HasUtc) :
    l.Tells b w (l.answer b (.between start finish)) (l.findBetween start finish w) := by
  have hfound := (tells_findKeys hs fun ms => start.milli ≤ ms && ms ≤ finish.milli).bind
    (Ordered.between start finish)
  rw [findBetween, ha.epochMillis_eq_milli, hb.epochMillis_eq_milli]
  have hpick : l.answer b (.between start finish) = Fault.gather (fun _ => false) (entryAt b)
      (((l.listing b).filter fun k => start.milli ≤ k.1 && k.1 ≤ finish.milli).map (·.2)) >>=
        Ordered.between start finish := by
    rw [answer]
    cases hg : Fault.gather (fun _ => false) (entryAt b)
        (((l.listing b).filter fun k => start.milli ≤ k.1 && k.1 ≤ finish.milli).map (·.2)) with
    | error f => exact congrArg (Except.map _) hg
    | ok es =>
      have haware : ∀ e ∈ es, e.createdAt.isAware = true := by
        intro e he
        obtain ⟨key, -, hread⟩ := Fault.mem_of_gather hg he
        exact isAware_of_readObject hread
      refine (congrArg (Except.map _) hg).trans ?_
      exact (Ordered.between_of_aware ha.1 hb.1 haware).symm
  rw [hpick]
  exact hfound

theorem tells_all : l.Tells b w (l.answer b .all) (l.store.ask .all w) := by
  have hfound := tells_findKeys hs fun _ => true
  rw [List.filter_true] at hfound
  have hpick : l.answer b .all = Fault.gather (fun _ => false) (entryAt b) ((l.listing b).map (·.2)) := by
    rw [answer]
    show (Fault.gather (fun _ => false) (entryAt b) ((l.listing b).map (·.2))).map id = _
    cases Fault.gather (fun _ => false) (entryAt b) ((l.listing b).map (·.2)) <;> rfl
  rw [hpick]
  exact hfound

/-- Whatever a log is asked for, it tells the answer from the objects of its bucket. -/
theorem tells_ask {q : Question} (hq : q.HasUtc) : l.Tells b w (l.answer b q) (l.store.ask q w) := by
  cases q with
  | last => exact answer_map_head? (q := .last) (fun es => ⟨es.getLast?, rfl⟩) ▸ (tells_findLast hs).map Option.toList
  | justBefore t =>
    exact answer_map_head? (q := .justBefore t) (fun es => ⟨(Ordered.earlier t es).getLast?, rfl⟩) ▸
      (tells_findJustBefore hs hq).map Option.toList
  | between start finish => exact tells_findBetween hs hq.1 hq.2
  | all => exact tells_all hs
  | ofType eventType start finish =>
    rw [Store.ask_ofType]
    cases hr : (Question.ofType eventType start finish).range? with
    | none =>
      rw [answer_ofType (q := .all) hr (.inr rfl)]
      exact (tells_all hs).map _
    | some ends =>
      obtain ⟨hstart, hfinish⟩ := hq.range hr
      rw [answer_ofType (q := .between ends.1 ends.2) hr (.inl ⟨_, _, rfl⟩)]
      exact (tells_findBetween hs hstart hfinish).map _

theorem answer_of_ask {q : Question} (hq : q.HasUtc) {es : List Entry} (h : (l.store.ask q w).1 = .ok es) :
    l.answer b q = .ok es := by
  rcases (tells_ask hs hq).result with ⟨f, hf, -⟩ | ha
  · exact absurd (hf.symm.trans h) (by simp)
  · exact ha.symm.trans h

end Telling

theorem exists_answer_all (h : ∀ k ∈ l.listing b, ∃ e, entryAt b k.2 = .ok e) :
    ∃ es, l.answer b .all = .ok es ∧ ∀ k ∈ l.listing b, ∀ e, entryAt b k.2 = .ok e → e ∈ es := by
  have hread : ∀ key ∈ Question.all.visits (l.listing b), ∃ e, entryAt b key = .ok e := by
    intro key hkey
    obtain ⟨k, hk, rfl⟩ := List.mem_map.mp hkey
    exact h k hk
  have hgathered : ∃ es, Fault.gather Question.all.isSettledBy (entryAt b) (Question.all.visits (l.listing b)) =
      .ok es := Fault.exists_gather_of_forall hread
  obtain ⟨es, hes⟩ := hgathered
  refine ⟨es, by rw [answer, hes]; rfl, ?_⟩
  intro k hk e he
  exact Fault.mem_gather_of_mem hes (List.mem_map_of_mem hk) he

section Unlisted

variable {key : Text} (h : l.millisOfKey? key = none) (bs : List UInt8)

include h

private theorem listing_put_of_unlisted : l.listing (b.put key bs) = l.listing b := by
  have htold : ∀ c : Bucket, (ObjectService.keysUnder l.root c).filterMap (fun k => (l.millisOfKey? k).map (·, k)) =
      c.keys.filterMap fun k => (l.millisOfKey? k).map (·, k) := by
    intro c
    rw [ObjectService.keysUnder, List.filterMap_filter]
    apply List.filterMap_congr
    intro k _
    split
    · rfl
    · cases hm : l.millisOfKey? k with
      | none => rfl
      | some ms => exact absurd (isSome_dropFront?_of_millisOfKey? hm) ‹_›
  have hkey : (l.millisOfKey? key).map (·, key) = none := by rw [h, Option.map_none]
  rw [listing, listing, entryKeys, entryKeys, htold, htold, Bucket.filterMap_keys_put hkey]

/-- An object under a key that tells no millisecond changes no answer. -/
theorem answer_put_of_unlisted (q : Question) : l.answer (b.put key bs) q = l.answer b q := by
  rw [answer, answer, listing_put_of_unlisted h]
  congr 1
  apply Fault.gather_congr
  intro k hk
  obtain ⟨-, ms, hms⟩ := exists_listed_of_mem_visits hk
  have hne : key ≠ k := by
    rintro rfl
    exact absurd (h.symm.trans hms) (by simp)
  rw [entryAt, entryAt, Bucket.get?_put_of_ne hne]

end Unlisted

end ObjectLog

end AuditTrail
