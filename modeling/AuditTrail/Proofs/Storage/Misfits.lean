import AuditTrail.Proofs.Storage.BucketReads

/-!
# Reads of damaged storage

A log that holds anything at all is read up to the first line or object that is no entry. A fault of a log file is
a fault of storage unless that line is JSON and a misfit: no map, or a map whose stamp is no text or leaves the years
of an instant (`Misfit`, `Entry.ofRecord_eq_error_iff`). A bucket makes no fault of an object's content a fault of
storage. With that it is settled for every read when it fails with a fault that is none of storage
(`Question.escapes_iff`).
-/

namespace AuditTrail

namespace Entry

/-- All fields that a record must have are there. -/
def HasRequired (fields : List (Value × Value)) : Prop :=
  ∀ name ∈ ["id", "event_type", "module", "previous_hash", "current_hash", "created_at"],
    ∃ v, Value.find? (lit name) fields = some v

end Entry

/-- A value with the fault that it is no record for, although no field is missing from it. -/
inductive Misfit : Value → Fault → Prop where
  | notAMap {v : Value} (h : ∀ fields, v ≠ .map fields) : Misfit v .wrongType
  | stampNotText {fields : List (Value × Value)} {v : Value} {f : Fault} (hr : Entry.HasRequired fields)
      (hv : Value.find? (lit "created_at") fields = some v) (ht : v.isText = false)
      (hf : Entry.readStamp v = .error f) : Misfit (.map fields) f
  | stampOutOfYears {fields : List (Value × Value)} {stamp : Text} {t : Instant} (hr : Entry.HasRequired fields)
      (hv : Value.find? (lit "created_at") fields = some (.text stamp))
      (ht : StampReader.instant? (StampReader.expandZulu stamp) = some t) (hu : ∀ u, t.toUtc ≠ .ok u) :
      Misfit (.map fields) .outOfRange

namespace Instant

theorem toUtc_eq_error {t : Instant} {f : Fault} (h : t.toUtc = .error f) : f = .outOfRange := by
  rw [toUtc, ofWall] at h
  split at h
  · exact absurd h (by simp)
  · exact (Except.error.inj h).symm

end Instant

namespace StampReader

private theorem read_eq_error_iff {stamp : Text} {f : Fault} : read stamp = .error f ↔
    (instant? (expandZulu stamp) = none ∧ f = .platform .malformedValue) ∨
      ∃ t, instant? (expandZulu stamp) = some t ∧ (∀ u, t.toUtc ≠ .ok u) ∧ f = .outOfRange := by
  rw [read]
  cases hi : instant? (expandZulu stamp) with
  | none => simp [eq_comm]
  | some t =>
    cases hu : t.toUtc with
    | ok u => simp [hu]
    | error g =>
      obtain rfl := Instant.toUtc_eq_error hu
      simp [hu, eq_comm]

end StampReader

namespace Entry

private theorem readStamp_of_not_isText {v : Value} (h : v.isText = false) :
    readStamp v = .error .wrongType ∨ readStamp v = .error (.platform .noSuchAttribute) := by
  cases v with
  | text t => exact absurd h (by simp [Value.isText])
  | bytes bs => exact .inl rfl
  | object name =>
    rw [readStamp]
    split
    · exact .inl rfl
    · exact .inr rfl
  | null | bool _ | int _ | float _ | list _ | tuple _ | map _ => exact .inr rfl

private theorem required_cases (fields : List (Value × Value)) (name : String) {α : Type} (g : Value → Except Fault α) :
    (∃ v, Value.find? (lit name) fields = some v ∧ (required fields name >>= g) = g v) ∨
      (required fields name >>= g) = .error (.missingKey (.text (lit name))) := by
  rw [required]
  cases Value.find? (lit name) fields with
  | none => exact .inr rfl
  | some v => exact .inl ⟨v, rfl, rfl⟩

/-- A map is no record for a field that is missing from it, or for its stamp if none is. -/
private theorem ofRecord_map_cases (fields : List (Value × Value)) :
    (∃ name, ofRecord (.map fields) = .error (.missingKey (.text (lit name)))) ∨
      HasRequired fields ∧ ∃ v, Value.find? (lit "created_at") fields = some v ∧
        ∀ f, ofRecord (.map fields) = .error f ↔ readStamp v = .error f := by
  rw [ofRecord]
  rcases required_cases fields "id" _ with ⟨id, hid, h⟩ | h
  case inr => exact .inl ⟨_, h⟩
  rw [h]
  rcases required_cases fields "event_type" _ with ⟨eventType, htype, h⟩ | h
  case inr => exact .inl ⟨_, h⟩
  rw [h]
  rcases required_cases fields "module" _ with ⟨source, hsource, h⟩ | h
  case inr => exact .inl ⟨_, h⟩
  rw [h]
  rcases required_cases fields "previous_hash" _ with ⟨previous, hprevious, h⟩ | h
  case inr => exact .inl ⟨_, h⟩
  rw [h]
  rcases required_cases fields "current_hash" _ with ⟨current, hcurrent, h⟩ | h
  case inr => exact .inl ⟨_, h⟩
  rw [h]
  rcases required_cases fields "created_at" _ with ⟨created, hcreated, h⟩ | h
  case inr => exact .inl ⟨_, h⟩
  rw [h]
  refine .inr ⟨?_, created, hcreated, ?_⟩
  · simp only [HasRequired, List.mem_cons, List.not_mem_nil, or_false, forall_eq_or_imp, forall_eq]
    exact ⟨⟨_, hid⟩, ⟨_, htype⟩, ⟨_, hsource⟩, ⟨_, hprevious⟩, ⟨_, hcurrent⟩, ⟨_, hcreated⟩⟩
  · intro f
    cases readStamp created with
    | error g => simp only [bind, Except.bind, Except.error.injEq]
    | ok t => simp only [bind, Except.bind, pure, Except.pure, reduceCtorEq]

open FileLog (isReadFault)

/-- A value that is no record without being unreadable in a log file's own terms is a misfit. -/
theorem ofRecord_eq_error_iff {v : Value} {f : Fault} :
    ofRecord v = .error f ∧ isReadFault f = false ↔ Misfit v f := by
  constructor
  · rintro ⟨h, hf⟩
    cases v with
    | map fields =>
      rcases ofRecord_map_cases fields with ⟨name, hmissing⟩ | ⟨hrequired, stamp, hstamp, hiff⟩
      · obtain rfl := Except.error.inj (hmissing.symm.trans h)
        exact absurd hf (by simp [isReadFault])
      · have hread := (hiff f).mp h
        cases ht : stamp.isText with
        | false => exact .stampNotText hrequired hstamp ht hread
        | true =>
          obtain ⟨t, rfl⟩ := Value.exists_of_isText ht
          rcases StampReader.read_eq_error_iff.mp hread with ⟨-, rfl⟩ | ⟨i, hi, hu, rfl⟩
          · exact absurd hf (by simp [isReadFault])
          · exact .stampOutOfYears hrequired hstamp hi hu
    | null | bool _ | int _ | float _ | text _ | bytes _ | list _ | tuple _ | object _ =>
      obtain rfl := Except.error.inj h
      exact .notAMap (by simp)
  · have hrecord : ∀ {fields : List (Value × Value)} {stamp : Value}, HasRequired fields →
        Value.find? (lit "created_at") fields = some stamp → readStamp stamp = .error f →
          ofRecord (.map fields) = .error f := by
      intro fields stamp hrequired hstamp hread
      obtain ⟨⟨id, hid⟩, ⟨eventType, htype⟩, ⟨source, hsource⟩, ⟨previous, hprevious⟩, ⟨current, hcurrent⟩, -⟩ :=
        (by simpa only [HasRequired, List.mem_cons, List.not_mem_nil, or_false, forall_eq_or_imp, forall_eq] using
          hrequired)
      simp only [ofRecord, required, hid, htype, hsource, hprevious, hcurrent, hstamp, bind, Except.bind, hread]
    intro h
    cases h with
    | notAMap hmap =>
      cases v with
      | map fields => exact absurd rfl (hmap fields)
      | null | bool _ | int _ | float _ | text _ | bytes _ | list _ | tuple _ | object _ => exact ⟨rfl, rfl⟩
    | stampNotText hrequired hstamp ht hread =>
      refine ⟨hrecord hrequired hstamp hread, ?_⟩
      rcases readStamp_of_not_isText ht with hw | hw <;>
        · obtain rfl := Except.error.inj (hw.symm.trans hread)
          rfl
    | stampOutOfYears hrequired hstamp ht hu =>
      exact ⟨hrecord hrequired hstamp (StampReader.read_eq_error_iff.mpr (.inr ⟨_, ht, hu, rfl⟩)), rfl⟩

private theorem class?_of_isReadFault {f : Fault} (h : isReadFault f = true) : f.class? = none := by
  cases f with
  | disk _ _ | missingKey _ | unaware _ | platform _ => rfl
  | encoding _ | range _ | closed | integrity _ | outage _ | unreadable _ _ | unwritable _ | noClient _ | refused _ _
  | remote _ _ | setting _ | host _ _ => exact absurd h (by simp [isReadFault])

private theorem class?_of_ofRecord {v : Value} {f : Fault} (h : ofRecord v = .error f) : f.class? = none := by
  cases hf : isReadFault f with
  | false =>
    cases ofRecord_eq_error_iff.mp ⟨h, hf⟩ with
    | notAMap => rfl
    | stampNotText _ _ ht hread =>
      rcases readStamp_of_not_isText ht with hw | hw <;>
        · obtain rfl := Except.error.inj (hw.symm.trans hread)
          rfl
    | stampOutOfYears => rfl
  | true => exact class?_of_isReadFault hf

end Entry

namespace Json

private theorem eq_of_readOctets_eq_error {bs : List UInt8} {f : Fault} (h : readOctets bs = .error f) :
    f = .platform .undecodableOctets ∨ f = malformed ∨ f = .oversized := by
  rw [readOctets] at h
  split at h
  · exact .inr (eq_of_read_eq_error h)
  · exact .inl (Except.error.inj h).symm

private theorem eq_of_readUtf8_eq_error {bs : List UInt8} {f : Fault} (h : readUtf8 bs = .error f) :
    f = .platform .undecodableOctets ∨ f = malformed ∨ f = .oversized := by
  rw [readUtf8] at h
  split at h
  · exact .inr (eq_of_read_eq_error h)
  · exact .inl (Except.error.inj h).symm

end Json

namespace FileLog

/-- The lines of a file's content that are read: those that have their line end and are not blank. -/
def logLines (content : List UInt8) : List (List UInt8) := (completeLines [] content).filter fun l => !l.all isBlankOctet

/-- A line is unreadable in the log's own terms unless it is JSON and a misfit. -/
private theorem readLine_eq_error_iff {line : List UInt8} {f : Fault} :
    readLine line = .error f ∧ isReadFault f = false ↔ ∃ v, Json.readOctets line = .ok v ∧ Misfit v f := by
  rw [readLine, Fault.bind_eq_error_iff]
  constructor
  · rintro ⟨hread | ⟨v, hv, hrecord⟩, hf⟩
    · rcases Json.eq_of_readOctets_eq_error hread with rfl | rfl | rfl <;> exact absurd hf (by decide)
    · exact ⟨v, hv, Entry.ofRecord_eq_error_iff.mp ⟨hrecord, hf⟩⟩
  · rintro ⟨v, hv, hm⟩
    obtain ⟨hrecord, hf⟩ := Entry.ofRecord_eq_error_iff.mpr hm
    exact ⟨.inr ⟨v, hv, hrecord⟩, hf⟩

/-- A log's file has a line that is JSON and a misfit, and all lines before it can be read. -/
def FirstMisfit (path : Text) (d : Disk) (f : Fault) : Prop :=
  ∃ content front line behind v, d.read path = .ok content ∧ logLines content = front ++ line :: behind ∧
    (∀ k ∈ front, ∃ e, readLine k = .ok e) ∧ Json.readOctets line = .ok v ∧ Misfit v f

private theorem isAware_of_readLine {line : List UInt8} {e : Entry} (h : readLine line = .ok e) :
    e.createdAt.isAware = true := by
  obtain ⟨v, -, hv⟩ := Fault.bind_eq_ok_iff.mp h
  exact Entry.isAware_of_ofRecord hv

private theorem isReadFault_of_read {path : Text} {d : Disk} {f : Fault} (h : d.read path = .error f) :
    isReadFault f = true := by
  rw [Disk.read] at h
  split at h
  · exact absurd h (by simp)
  · exact Except.error.inj h ▸ rfl
  · exact Except.error.inj h ▸ rfl

theorem answers_of_readLines_ok {path : Text} {w : Files} {content : List UInt8} {es : List Entry}
    (hr : w.disk.read path = .ok content) (hes : readLines content = .ok es) :
    Answers path w (es.mergeSort Ordered.le) := by
  have haware : ∀ e ∈ es, e.createdAt.isAware = true := by
    intro e he
    rw [readLines, Fault.mapM_eq_gather] at hes
    obtain ⟨line, -, hline⟩ := Fault.mem_of_gather hes he
    exact isAware_of_readLine hline
  apply answers_of_entries
  · rw [entries, hr]
    simp only [bind, Except.bind, hes]
    exact Ordered.sort_of_aware haware
  · exact fun e he => haware e (List.mem_mergeSort.mp he)

/-- What a read of a log ends in: an answer, a fault of storage, or the fault of the first line that is unreadable. -/
private theorem ask_cases (path : Text) (w : Files) {q : Question} (hq : q.HasUtc) :
    (∃ es content, w.disk.read path = .ok content ∧ readLines content = .ok es ∧
      ∃ found, (store path).ask q w = (.ok found, w)) ∨
    ∃ f, (w.disk.read path >>= readLines) = .error f ∧ (store path).ask q w = (.error (readFault path f), w) := by
  cases hr : w.disk.read path >>= readLines with
  | ok es =>
    obtain ⟨content, hcontent, hlines⟩ := Fault.bind_eq_ok_iff.mp hr
    exact .inl ⟨es, content, hcontent, hlines, _, (answers_of_readLines_ok hcontent hlines).toStore.ask hq⟩
  | error f =>
    refine .inr ⟨f, rfl, Refuses.ask (refuses_of_entries ?_) q⟩
    rw [entries, hr]

/-- A read of a log fails with a fault that is none of storage exactly at its first misfit. -/
private theorem ask_escapes_iff {path : Text} {w : Files} {q : Question} (hq : q.HasUtc) {f : Fault} :
    ((store path).ask q w).1 = .error f ∧ f.class? ≠ some .storage ↔ FirstMisfit path w.disk f := by
  have hfirst : ∀ content, readLines content = .error f ↔ ∃ front line behind,
      logLines content = front ++ line :: behind ∧ (∀ k ∈ front, ∃ e, readLine k = .ok e) ∧
        readLine line = .error f := by
    intro content
    rw [readLines, Fault.mapM_eq_gather, Fault.gather_eq_error_iff]
    simp only [logLines, and_true]
  constructor
  · rintro ⟨hask, hclass⟩
    rcases ask_cases path w hq with ⟨es, content, -, -, found, hok⟩ | ⟨g, hg, herror⟩
    · rw [hok] at hask
      exact absurd hask (by simp)
    · obtain rfl : readFault path g = f := by
        rw [herror] at hask
        exact Except.error.inj hask
      cases hread : isReadFault g with
      | true => exact absurd (by rw [readFault, hread]; rfl) hclass
      | false =>
        have hself : readFault path g = g := by rw [readFault, hread, if_neg (by decide)]
        rw [hself] at hfirst ⊢
        rcases Fault.bind_eq_error_iff.mp hg with hdisk | ⟨content, hcontent, hlines⟩
        · exact absurd (isReadFault_of_read hdisk) (by simp [hread])
        · obtain ⟨front, line, behind, hsplit, hfront, hline⟩ := (hfirst content).mp hlines
          obtain ⟨v, hv, hm⟩ := readLine_eq_error_iff.mp ⟨hline, hread⟩
          exact ⟨content, front, line, behind, v, hcontent, hsplit, hfront, hv, hm⟩
  · rintro ⟨content, front, line, behind, v, hcontent, hsplit, hfront, hv, hm⟩
    obtain ⟨hline, hread⟩ := readLine_eq_error_iff.mpr ⟨v, hv, hm⟩
    have hlines := (hfirst content).mpr ⟨front, line, behind, hsplit, hfront, hline⟩
    have hclass : f.class? = none := Entry.class?_of_ofRecord (Entry.ofRecord_eq_error_iff.mpr hm).1
    rcases ask_cases path w hq with ⟨es, content', hcontent', hok, -⟩ | ⟨g, hg, herror⟩
    · obtain rfl := Except.ok.inj (hcontent.symm.trans hcontent')
      exact absurd (hlines.symm.trans hok) (by simp)
    · rw [hcontent] at hg
      obtain rfl := Except.error.inj (hlines.symm.trans hg)
      rw [herror, readFault, hread, if_neg (by decide), hclass]
      exact ⟨rfl, by simp⟩

end FileLog

namespace ObjectLog

variable {l : ObjectLog} {b : Bucket}

private theorem class?_of_readObject {bs : List UInt8} {f : Fault} (h : readObject bs = .error f) :
    f.class? = none := by
  rcases Fault.bind_eq_error_iff.mp h with hread | ⟨v, -, hv⟩
  · rcases Json.eq_of_readUtf8_eq_error hread with rfl | rfl | rfl <;> rfl
  · exact Entry.class?_of_ofRecord hv

/-- An object that is visited for a question cannot be read, and all that were visited before it can be and do not
settle the question. -/
def FirstUnreadable (l : ObjectLog) (b : Bucket) (q : Question) (f : Fault) : Prop :=
  ∃ front key behind, q.visits (l.listing b) = front ++ key :: behind ∧
    (∀ k ∈ front, ∃ e, entryAt b k = .ok e ∧ q.isSettledBy e = false) ∧ entryAt b key = .error f

private theorem answer_eq_error_iff {q : Question} {f : Fault} : l.answer b q = .error f ↔ l.FirstUnreadable b q f := by
  rw [answer, Fault.map_eq_error_iff, Fault.gather_eq_error_iff, FirstUnreadable]

private theorem FirstUnreadable.class?_eq_none {q : Question} {f : Fault} (h : l.FirstUnreadable b q f) :
    f.class? = none := by
  obtain ⟨_, _, _, -, -, hkey⟩ := h
  exact class?_of_readObject hkey

end ObjectLog

/-- A read of a log file fails with a fault that is none of storage exactly at a first line that is JSON and a misfit.
In a bucket whose service has only faults of its own, a read does so only at a first object that cannot be read for
whatever reason, and always if the service has no faults. -/
theorem Question.escapes_iff {q : Question} (hq : q.HasUtc) :
    (∀ (path : Text) (w : Files) (f : Fault), ((FileLog.store path).ask q w).1 = .error f ∧ f.class? ≠ some .storage ↔
      FileLog.FirstMisfit path w.disk f) ∧
    ∀ (l : ObjectLog) (b : Bucket) (w : Objects) (f : Fault), w.service.Serves l.bucket b →
      (∀ kind text, some (.other text) ∉ w.service.staged kind) →
        ((l.store.ask q w).1 = .error f ∧ f.class? ≠ some .storage → l.FirstUnreadable b q f) ∧
        (w.service.IsCalm → l.FirstUnreadable b q f →
          (l.store.ask q w).1 = .error f ∧ f.class? ≠ some .storage) := by
  refine ⟨fun path w f => FileLog.ask_escapes_iff hq, ?_⟩
  intro l b w f hs hown
  have htells := ObjectLog.tells_ask hs hq
  constructor
  · rintro ⟨hask, hclass⟩
    rcases htells.result with ⟨g, hg, hstorage | ⟨kind, text, hother⟩⟩ | hanswer
    · obtain rfl := Except.error.inj (hg.symm.trans hask)
      exact absurd hstorage hclass
    · exact absurd hother (hown kind text)
    · exact ObjectLog.answer_eq_error_iff.mp (hanswer.symm.trans hask)
  · intro hcalm hfirst
    rw [htells.calm hcalm, ObjectLog.answer_eq_error_iff.mpr hfirst, hfirst.class?_eq_none]
    exact ⟨rfl, by simp⟩

/-- A line that is a number, and an object without octets. -/
theorem Question.escapes_iff_of_number :
    let w : Files := ⟨⟨[([lit "log"], .file [0x35, 0x0A])]⟩, default⟩
    let l : ObjectLog := .ofFolder (lit "b") (lit "audit")
    let o : Objects := ⟨⟨[(lit "b", [(lit "audit/000000000000000-x.json", [])])], fun _ => [], 1000⟩, default⟩
    ((FileLog.store (lit "log")).ask .last w).1 = .error .wrongType ∧
      (l.store.ask .last o).1 = .error (.platform .malformedJson) := by
  intro w l o
  obtain ⟨hfile, hbucket⟩ := Question.escapes_iff (q := .last) trivial
  have hmisfit : FileLog.FirstMisfit (lit "log") w.disk .wrongType :=
    ⟨[0x35, 0x0A], [], [0x35, 0x0A], [], .int 5, rfl, rfl, fun k hk => absurd hk List.not_mem_nil, rfl,
      .notAMap fun fields => by simp⟩
  have hserves : o.service.Serves l.bucket [(lit "audit/000000000000000-x.json", [])] :=
    ⟨by decide, rfl, fun c hc _ => List.mem_singleton.mp hc⟩
  have hlisting : l.listing [(lit "audit/000000000000000-x.json", [])] = [(0, lit "audit/000000000000000-x.json")] := by
    rw [ObjectLog.listing, ObjectLog.entryKeys]
    exact List.mergeSort_singleton _
  have hunreadable : l.FirstUnreadable [(lit "audit/000000000000000-x.json", [])] .last (.platform .malformedJson) := by
    refine ⟨[], lit "audit/000000000000000-x.json", [], ?_, fun k hk => absurd hk List.not_mem_nil, ?_⟩
    · rw [hlisting]
      rfl
    · rfl
  refine ⟨((hfile (lit "log") w .wrongType).mpr hmisfit).1, ?_⟩
  exact ((hbucket l _ o _ hserves fun _ _ => List.not_mem_nil).2 (fun _ => rfl) hunreadable).1

end AuditTrail
