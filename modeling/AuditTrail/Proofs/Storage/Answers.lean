import AuditTrail.Proofs.Storage.RoundTrip
import AuditTrail.Proofs.Storage.TornLog
import AuditTrail.Storage.Memory
import Mathlib.Data.List.Forall2

/-!
# Answers of a store

A store answers from given entries when it finds what is asked for among them, in the order of their instants, and
stays as it is. Stores that answer from alike entries give alike answers to every question
(`Store.Answers.alike`). A store in memory answers from its rows (`Memory.answers`), and a log file from its lines
(`FileLog.answers_of_lines`).
-/

namespace AuditTrail

/-- An aware instant that has a reading in UTC. -/
def Instant.HasUtc (t : Instant) : Prop := t.isAware = true ∧ ∃ u, t.toUtc = .ok u

namespace Store

variable {V W : Type}

/-- A store finds what is asked for among given entries, in the order of their instants, and stays as it is. -/
structure Answers (store : Store W) (w : W) (es : List Entry) : Prop where
  all : store.all w = (.ok es, w)
  findLast : store.findLast w = (.ok es.getLast?, w)
  findBetween : ∀ start finish : Instant, start.HasUtc → finish.HasUtc →
    store.findBetween start finish w = (.ok (Ordered.inRange start finish es), w)
  findJustBefore : ∀ t : Instant, t.HasUtc → store.findJustBefore t w = (.ok (Ordered.earlier t es).getLast?, w)

end Store

namespace Entry

/-- Two entries say the same, at the same moment. -/
structure Alike (e e' : Entry) : Prop extends Matches e e' where
  aware : e.createdAt.isAware = true ∧ e'.createdAt.isAware = true
  moment : e'.createdAt.moment = e.createdAt.moment

end Entry

namespace Store

variable {V W α : Type}

/-- Two calls succeed with related results, and leave their worlds as they were. -/
def Agree (R : α → α → Prop) (x : Except Fault α × V) (v : V) (y : Except Fault α × W) (w : W) : Prop :=
  ∃ a b, x = (.ok a, v) ∧ y = (.ok b, w) ∧ R a b

/-- Two stores find alike entries, in the same order, whatever is asked for. -/
structure AnswersAlike (s : Store V) (v : V) (r : Store W) (w : W) : Prop where
  all : Agree (List.Forall₂ Entry.Alike) (s.all v) v (r.all w) w
  findLast : Agree (Option.Rel Entry.Alike) (s.findLast v) v (r.findLast w) w
  findJustBefore : ∀ t : Instant, t.HasUtc →
    Agree (Option.Rel Entry.Alike) (s.findJustBefore t v) v (r.findJustBefore t w) w
  findBetween : ∀ start finish : Instant, start.HasUtc → finish.HasUtc →
    Agree (List.Forall₂ Entry.Alike) (s.findBetween start finish v) v (r.findBetween start finish w) w
  findByType : ∀ eventType : Text, Agree (List.Forall₂ Entry.Alike) (s.findByEventType (.text eventType) none none v) v
    (r.findByEventType (.text eventType) none none w) w
  findByTypeBetween : ∀ (eventType : Text) (start finish : Instant), start.HasUtc → finish.HasUtc →
    Agree (List.Forall₂ Entry.Alike) (s.findByEventType (.text eventType) (some start) (some finish) v) v
      (r.findByEventType (.text eventType) (some start) (some finish) w) w

private theorem rel_getLast? {R : α → α → Prop} {xs ys : List α} (h : List.Forall₂ R xs ys) :
    Option.Rel R xs.getLast? ys.getLast? := by
  have hr := List.rel_reverse h
  rw [List.getLast?_eq_head?_reverse, List.getLast?_eq_head?_reverse]
  generalize xs.reverse = as, ys.reverse = bs at hr
  cases hr with
  | nil => exact .none
  | cons hab _ => exact .some hab

private theorem forall₂_filter {p : Entry → Bool} (hp : ∀ e e' : Entry, e.Alike e' → p e = p e') {es fs : List Entry}
    (h : List.Forall₂ Entry.Alike es fs) : List.Forall₂ Entry.Alike (es.filter p) (fs.filter p) :=
  List.rel_filter (fun {e e'} hee => iff_of_eq (congrArg (· = true) (hp e e' hee))) h

private theorem forall₂_inRange (start finish : Instant) {es fs : List Entry} (h : List.Forall₂ Entry.Alike es fs) :
    List.Forall₂ Entry.Alike (Ordered.inRange start finish es) (Ordered.inRange start finish fs) :=
  forall₂_filter (fun _ _ hee => by rw [hee.moment]) h

private theorem forall₂_earlier (t : Instant) {es fs : List Entry} (h : List.Forall₂ Entry.Alike es fs) :
    List.Forall₂ Entry.Alike (Ordered.earlier t es) (Ordered.earlier t fs) :=
  forall₂_filter (fun _ _ hee => by rw [hee.moment]) h

private theorem forall₂_ofType (eventType : Value) {es fs : List Entry} (h : List.Forall₂ Entry.Alike es fs) :
    List.Forall₂ Entry.Alike (es.filter fun e => e.eventType.same eventType)
      (fs.filter fun e => e.eventType.same eventType) :=
  forall₂_filter (fun _ _ hee => by rw [hee.eventType]) h

/-- Stores that answer from alike entries give alike answers. -/
theorem Answers.alike {s : Store V} {v : V} {r : Store W} {w : W} {es fs : List Entry} (hs : s.Answers v es)
    (hr : r.Answers w fs) (h : List.Forall₂ Entry.Alike es fs) : s.AnswersAlike v r w where
  all := ⟨es, fs, hs.all, hr.all, h⟩
  findLast := ⟨_, _, hs.findLast, hr.findLast, rel_getLast? h⟩
  findJustBefore t ht := ⟨_, _, hs.findJustBefore t ht, hr.findJustBefore t ht, rel_getLast? (forall₂_earlier t h)⟩
  findBetween start finish ha hb :=
    ⟨_, _, hs.findBetween start finish ha hb, hr.findBetween start finish ha hb, forall₂_inRange start finish h⟩
  findByType eventType := by
    refine ⟨_, _, ?_, ?_, forall₂_ofType (.text eventType) h⟩
    · simp only [findByEventType, hs.all, Except.map]
    · simp only [findByEventType, hr.all, Except.map]
  findByTypeBetween eventType start finish ha hb := by
    refine ⟨_, _, ?_, ?_, forall₂_ofType (.text eventType) (forall₂_inRange start finish h)⟩
    · simp only [findByEventType, hs.findBetween start finish ha hb, Except.map]
    · simp only [findByEventType, hr.findBetween start finish ha hb, Except.map]

end Store

/-- A store in memory without staged failures answers from its rows in the order of their instants. -/
theorem Memory.answers {m : Memory} (hf : m.failures = []) (ha : ∀ e ∈ m.entries, e.createdAt.isAware = true) :
    Memory.store.Answers m (m.entries.mergeSort Ordered.le) := by
  have hs := Ordered.sort_of_aware ha
  have hr : ∀ {α : Type} (read : List Entry → Except Fault α),
      Memory.reading read m = (read (m.entries.mergeSort Ordered.le), m) := by
    intro α read
    simp only [Memory.reading, hf, hs]
  have hm : ∀ e ∈ m.entries.mergeSort Ordered.le, e.createdAt.isAware = true :=
    fun e he => ha e (List.mem_mergeSort.mp he)
  refine ⟨hr _, hr _, ?_, ?_⟩
  · intro start finish hsu hfu
    exact (hr _).trans (by rw [Ordered.between_of_aware hsu.1 hfu.1 hm])
  · intro t ht
    exact (hr _).trans (by rw [Ordered.justBefore_of_aware ht.1 hm])

namespace FileLog

variable {path : Text} {w : Files}

theorem Answers.toStore {es : List Entry} (h : Answers path w es) : (store path).Answers w es where
  all := h.all
  findLast := h.findLast
  findBetween start finish hs hf := h.findBetween start finish hs.1 hf.1
  findJustBefore t ht := h.findJustBefore t ht.1

theorem completeLines_bytes (lines : List Line) :
    completeLines [] (lines.flatMap Line.bytes) = lines.map Line.bytes := by
  have hl := completeLines_lines lines []
  rwa [List.append_nil, completeLines, List.append_nil] at hl

theorem filter_bytes (lines : List Line) :
    (lines.map Line.bytes).filter (fun bs => !bs.all isBlankOctet) = lines.map Line.bytes := by
  rw [List.filter_eq_self]
  intro bs hb
  obtain ⟨l, -, rfl⟩ := List.mem_map.mp hb
  rw [← List.nil_append l.bytes, not_blank]
  rfl

private theorem readLines_lines (lines : List Line) (h : ∀ l ∈ lines, l.IsDated) :
    readLines (lines.flatMap Line.bytes) = .ok (lines.map Line.shown) := by
  rw [readLines, completeLines_bytes, filter_bytes, mapM_readLine h]

/-- A log file of dated lines answers from their entries in the order of their instants. -/
theorem answers_of_lines {lines : List Line} (hr : w.disk.read path = .ok (lines.flatMap Line.bytes))
    (h : ∀ l ∈ lines, l.IsDated) : (store path).Answers w ((lines.map Line.shown).mergeSort Ordered.le) :=
  (answers_of_readLines hr (readLines_lines lines h)).toStore

theorem create_line {content : List UInt8} (hr : w.disk.read path = .ok content) {d : Draft} {l : Line}
    (hl : l.entry = d.withId (.text w.ids.next)) :
    ∃ disk, create path d w = (.ok l.entry, ⟨disk, w.ids.take⟩) ∧ disk.read path = .ok (content ++ l.bytes) := by
  obtain ⟨disk, happend, hread⟩ := Disk.read_append hr l.bytes
  exact ⟨disk, (Entry.isWrittenAs_of_recordBytes l.recordBytes_eq).file path d w disk hl.symm happend, hread⟩

/-- A creation fails and leaves the file as it was, or adds the line of its entry. -/
theorem create_cases {content : List UInt8} (hr : w.disk.read path = .ok content) (d : Draft) :
    ((∃ f, (create path d w).1 = .error f) ∧ (create path d w).2.disk = w.disk) ∨
      ∃ r : Line, r.entry = d.withId (.text w.ids.next) ∧ (create path d w).1 = .ok r.entry ∧
        (create path d w).2.disk.read path = .ok (content ++ r.bytes) := by
  cases hb : recordBytes (d.withId (.text w.ids.next)) with
  | error f =>
    simp only [create, hb]
    exact .inl ⟨⟨f, rfl⟩, trivial⟩
  | ok bs =>
    obtain ⟨r, he, -⟩ := Line.exists_of_recordBytes hb
    obtain ⟨disk, hcreate, hread⟩ := create_line hr he
    rw [hcreate]
    exact .inr ⟨r, he, rfl, hread⟩

end FileLog

end AuditTrail
