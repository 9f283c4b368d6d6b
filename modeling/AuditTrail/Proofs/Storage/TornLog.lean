import AuditTrail.Proofs.Storage.Listing
import AuditTrail.Proofs.Storage.LogLines

/-!
# Appending behind a torn line

A log may end in the front of a line, of which the rest was never written. Reading passes over it, but the
next entry is appended right behind it, and the two become one line that cannot be read. From then on no
read of the log succeeds, although the entry was acknowledged (`create_after_tear`). Where nothing was
torn, and every line can be read, all reads find the lines' entries with the new one among them.
-/

namespace AuditTrail.FileLog

/-- Every read of a log answers from the same entries in the order of their instants, and leaves the log as
it is. -/
structure Answers (path : Text) (w : Files) (es : List Entry) : Prop where
  all : (store path).all w = (.ok es, w)
  findLast : (store path).findLast w = (.ok es.getLast?, w)
  findBetween : ∀ start finish, start.isAware = true → finish.isAware = true →
    (store path).findBetween start finish w = (.ok (Ordered.inRange start finish es), w)
  findJustBefore : ∀ t, t.isAware = true → (store path).findJustBefore t w = (.ok (Ordered.earlier t es).getLast?, w)

/-- Every read of a log fails in the same way. -/
structure Refuses (path : Text) (w : Files) (f : Fault) : Prop where
  all : (store path).all w = (.error f, w)
  findLast : (store path).findLast w = (.error f, w)
  findBetween : ∀ start finish, (store path).findBetween start finish w = (.error f, w)
  findJustBefore : ∀ t, (store path).findJustBefore t w = (.error f, w)

variable {path : Text} {w : Files}

theorem answers_of_entries {es : List Entry} (h : entries path w.disk = .ok es)
    (ha : ∀ e ∈ es, e.createdAt.isAware = true) : Answers path w es where
  all := by simp only [store, reading, h, bind, Except.bind]
  findLast := by simp only [store, reading, h, bind, Except.bind]
  findBetween start finish hs hf := by
    simp only [store, reading, h, bind, Except.bind, Ordered.between_of_aware hs hf ha]
  findJustBefore t ht := by simp only [store, reading, h, bind, Except.bind, Ordered.justBefore_of_aware ht ha]

theorem refuses_of_entries {f : Fault} (h : entries path w.disk = .error f) : Refuses path w f where
  all := by simp only [store, reading, h, bind, Except.bind]
  findLast := by simp only [store, reading, h, bind, Except.bind]
  findBetween start finish := by simp only [store, reading, h, bind, Except.bind]
  findJustBefore t := by simp only [store, reading, h, bind, Except.bind]

theorem completeLines_lines (lines : List Line) (rest : List UInt8) :
    completeLines [] (lines.flatMap Line.bytes ++ rest) = lines.map Line.bytes ++ completeLines [] rest := by
  induction lines with
  | nil => rfl
  | cons l lines ih =>
    rw [List.flatMap_cons, Line.bytes, List.append_assoc, List.append_assoc, List.singleton_append,
      completeLines_append l.newline_not_mem_octets, ih]
    rfl

private theorem completeLines_torn {l new : Line} {torn : List UInt8} (ht : torn <+: l.octets) :
    completeLines [] (torn ++ new.bytes) = [torn ++ new.bytes] := by
  have hn : newline ∉ torn ++ new.octets := by
    intro hm
    rcases List.mem_append.mp hm with hm | hm
    · exact l.newline_not_mem_octets (ht.subset hm)
    · exact new.newline_not_mem_octets hm
  have hc := completeLines_append hn [] []
  rw [Line.bytes, ← List.append_assoc]
  exact hc

theorem not_blank (front : List UInt8) (l : Line) : (front ++ l.bytes).all isBlankOctet = false := by
  obtain ⟨u, -, hb⟩ := l.exists_bytes
  have hm : 0x7B ∈ front ++ l.bytes := by
    rw [hb, List.cons_append, Utf8.encode_cons]
    exact List.mem_append_right front (List.mem_append_left _ List.mem_cons_self)
  cases ha : (front ++ l.bytes).all isBlankOctet with
  | false => rfl
  | true => exact absurd (List.all_eq_true.mp ha 0x7B hm) (by decide)

private theorem readLines_torn (lines : List Line) {l new : Line} {torn : List UInt8} (ht : torn <+: l.octets) :
    readLines (lines.flatMap Line.bytes ++ torn ++ new.bytes) =
      (lines.map Line.bytes ++ [torn ++ new.bytes]).mapM readLine := by
  have hf : (lines.map Line.bytes ++ [torn ++ new.bytes]).filter (fun l => !l.all isBlankOctet) =
      lines.map Line.bytes ++ [torn ++ new.bytes] := by
    rw [List.filter_eq_self]
    intro bs hm
    rcases List.mem_append.mp hm with hm | hm
    · obtain ⟨k, -, rfl⟩ := List.mem_map.mp hm
      rw [← List.nil_append k.bytes, not_blank]
      rfl
    · rw [List.mem_singleton.mp hm, not_blank]
      rfl
  rw [readLines, List.append_assoc, completeLines_lines, completeLines_torn ht, hf]

theorem mapM_readLine {lines : List Line} (h : ∀ l ∈ lines, l.IsDated) :
    (lines.map Line.bytes).mapM readLine = .ok (lines.map Line.shown) := by
  induction lines with
  | nil => rfl
  | cons l lines ih =>
    have hl := Line.readLine_of_isDated (h l List.mem_cons_self)
    rw [List.map_cons, List.mapM_cons, hl, ih fun k hk => h k (List.mem_cons_of_mem l hk)]
    rfl

theorem answers_of_readLines {lines : List Line} {content : List UInt8} (hr : w.disk.read path = .ok content)
    (hl : readLines content = .ok (lines.map Line.shown)) :
    Answers path w ((lines.map Line.shown).mergeSort Ordered.le) := by
  have ha : ∀ e ∈ lines.map Line.shown, e.createdAt.isAware = true := by
    intro e he
    obtain ⟨l, -, rfl⟩ := List.mem_map.mp he
    exact l.isAware_shown
  apply answers_of_entries
  · rw [entries, hr]
    simp only [bind, Except.bind, hl]
    exact Ordered.sort_of_aware ha
  · intro e he
    exact ha e (List.mem_mergeSort.mp he)

theorem refuses_of_readLines {content : List UInt8} {f : Fault} (hr : w.disk.read path = .ok content)
    (hl : readLines content = .error f) (hf : isReadFault f = true) : Refuses path w (.unreadable path f) := by
  apply refuses_of_entries
  rw [entries, hr]
  simp only [bind, Except.bind, hl, readFault, hf, if_true]

/-- A log is refused for a tear in front of its last line, or for a line whose stamp is not dated. -/
private theorem exists_readLines_error {lines : List Line} {l : Line} {torn : List UInt8} (ht : torn <+: l.octets)
    (h : ¬(torn = [] ∧ ∀ k ∈ lines, k.IsDated)) (new : Line) :
    ∃ f, readLines (lines.flatMap Line.bytes ++ torn ++ new.bytes) = .error f ∧ isReadFault f = true := by
  have hlast : torn ≠ [] → ∃ f, readLine (torn ++ new.bytes) = .error f ∧ isReadFault f = true :=
    l.readLine_torn new ht
  rw [readLines_torn lines ht]
  cases hm : (lines.map Line.bytes ++ [torn ++ new.bytes]).mapM readLine with
  | ok es =>
    exfalso
    apply h
    constructor
    · cases torn with
      | nil => rfl
      | cons b torn =>
        obtain ⟨f, hf, -⟩ := hlast (List.cons_ne_nil b torn)
        obtain ⟨e, he⟩ := Fault.exists_of_mapM_eq_ok hm (List.mem_append_right _ List.mem_cons_self)
        rw [hf] at he
        exact absurd he (by simp)
    · intro k hk
      obtain ⟨e, he⟩ := Fault.exists_of_mapM_eq_ok hm
        (List.mem_append_left _ (List.mem_map.mpr ⟨k, hk, rfl⟩))
      by_cases hdk : k.IsDated
      · exact hdk
      · rw [Line.readLine_of_not_isDated hdk] at he
        exact absurd he (by simp)
  | error f =>
    refine ⟨f, rfl, ?_⟩
    obtain ⟨bs, hb, hf⟩ := Fault.exists_of_mapM_eq_error hm
    rcases List.mem_append.mp hb with hb | hb
    · obtain ⟨k, -, rfl⟩ := List.mem_map.mp hb
      exact Line.isReadFault_of_readLine hf
    · rw [List.mem_singleton.mp hb] at hf
      by_cases hne : torn = []
      · subst hne
        exact Line.isReadFault_of_readLine hf
      · obtain ⟨g, hg, hrf⟩ := hlast hne
        rw [hg, Except.error.injEq] at hf
        exact hf ▸ hrf

/-- An entry appended to a log is acknowledged. If the log ended with its last line, and all lines can be
read, every read finds their entries and the new one, in the order of their instants. If the log ended in
the front of a line, however much of it, or has a line that cannot be read, every read fails. -/
theorem create_after_tear {lines : List Line} {l new : Line} {torn : List UInt8} {d : Draft} (ht : torn <+: l.octets)
    (hr : w.disk.read path = .ok (lines.flatMap Line.bytes ++ torn))
    (hn : new.entry = d.withId (.text w.ids.next)) (hd : new.IsDated) :
    ∃ w', create path d w = (.ok new.entry, w') ∧
      ((torn = [] ∧ ∀ k ∈ lines, k.IsDated) →
        Answers path w' (((lines ++ [new]).map Line.shown).mergeSort Ordered.le)) ∧
      (¬(torn = [] ∧ ∀ k ∈ lines, k.IsDated) → ∃ cause, Refuses path w' (.unreadable path cause)) := by
  obtain ⟨disk, happend, hread⟩ := Disk.read_append hr new.bytes
  have hrecord : recordBytes (d.withId (.text w.ids.next)) = .ok new.octets := hn ▸ new.recordBytes_eq
  refine ⟨⟨disk, w.ids.take⟩, ?_, ?_, ?_⟩
  · rw [Line.bytes] at happend
    simp only [create, hrecord, happend, hn]
  · rintro ⟨rfl, hdated⟩
    have hall : ∀ k ∈ lines ++ [new], k.IsDated := by
      intro k hk
      rcases List.mem_append.mp hk with hk | hk
      · exact hdated k hk
      · rwa [List.mem_singleton.mp hk]
    apply answers_of_readLines hread
    have hlines := mapM_readLine hall
    rw [List.map_append] at hlines
    rw [readLines_torn lines ht]
    exact hlines
  · intro h
    obtain ⟨f, hf, hrf⟩ := exists_readLines_error ht h new
    exact ⟨f, refuses_of_readLines hread hf hrf⟩

/-- Behind one line and the brace that begins another, an entry is acknowledged and all of the log is lost. -/
theorem create_after_tear_of_brace : ∃ l : Line, ∃ w w' : Files, w.disk.read (lit "log") = .ok (l.bytes ++ [0x7B]) ∧
    create (lit "log") l.entry.draft w = (.ok l.entry, w') ∧
    ∃ cause, Refuses (lit "log") w' (.unreadable (lit "log") cause) := by
  let t : Instant := ⟨63900000000000123, some 0, by decide⟩
  let e : Entry := ⟨.text (default : IdSource).next, .text (lit "a"), .text (lit "m"), .null, .list [], .text (lit "0"),
    .text (lit "0"), t⟩
  have hu : t.toUtc = .ok t := Instant.ofWall_eq_ok_iff.mpr ⟨rfl, rfl⟩
  have hf : ∀ v ∈ [e.id, e.eventType, e.source, e.correlationId, e.details, e.previousHash, e.currentHash],
      ∃ u, Canonical.encode v = .ok u := by
    simp only [List.mem_cons, List.not_mem_nil, or_false, forall_eq_or_imp, forall_eq]
    exact ⟨⟨_, rfl⟩, ⟨_, rfl⟩, ⟨_, rfl⟩, ⟨_, rfl⟩, ⟨_, rfl⟩, ⟨_, rfl⟩, ⟨_, rfl⟩⟩
  obtain ⟨l, he, hl⟩ := Line.exists_of_encodable rfl hu hf
  have hbrace : [0x7B] <+: l.octets := by
    obtain ⟨u, -, -, ho⟩ := l.exists_braced
    exact ⟨_, ho.symm⟩
  have hd : l.IsDated := by
    rw [Line.IsDated, hl]
    decide +kernel
  let w : Files := ⟨⟨[([lit "log"], .file (l.bytes ++ [0x7B]))]⟩, default⟩
  have hone : [l].flatMap Line.bytes = l.bytes := List.append_nil _
  have hr : w.disk.read (lit "log") = .ok (l.bytes ++ [0x7B]) := rfl
  have hn : l.entry = l.entry.draft.withId (.text w.ids.next) := by
    rw [he]
    rfl
  obtain ⟨w', hcreate, -, hlost⟩ := create_after_tear hbrace (hone ▸ hr) hn hd
  exact ⟨l, w, w', hr, hcreate, hlost fun h => absurd h.1 (List.cons_ne_nil _ _)⟩

end AuditTrail.FileLog
