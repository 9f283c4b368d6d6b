import AuditTrail.Chain.Link
import AuditTrail.Proofs.Canonical.Fixpoint
import AuditTrail.Proofs.Storage.LogLines
import AuditTrail.Storage.ObjectLog

/-!
# What storage keeps of an entry

A log file and a bucket write an entry as the same octets and read it back as an entry that matches it: all texts
are the same, the details have the same canonical text, and the instant is that of the millisecond in UTC
(`Entry.survives_storage`). Its hash, recomputed, is therefore the same (`Entry.recomputed_congr`).
-/

namespace AuditTrail

namespace Stamp

theorem ofUtcWall_truncate (t : Instant) : ofUtcWall t.truncate.wall = ofUtcWall t.wall := by
  have hw := Instant.wall_truncate t
  have hday : t.truncate.wall / Duration.perDay = t.wall / Duration.perDay := by
    simp only [Duration.perDay, Duration.perHour, Duration.perSecond, Duration.perMilli] at hw ⊢
    omega
  have hsecond : t.truncate.wall / Duration.perSecond = t.wall / Duration.perSecond := by
    simp only [Duration.perSecond, Duration.perMilli] at hw ⊢
    omega
  have hmilli : t.truncate.wall % Duration.perSecond / Duration.perMilli =
      t.wall % Duration.perSecond / Duration.perMilli := by
    simp only [Duration.perSecond, Duration.perMilli] at hw ⊢
    omega
  rw [ofUtcWall, ofUtcWall, timeText, timeText, hday, hsecond, hmilli]

private theorem write_truncate {t u : Instant} (ha : t.isAware = true) (hu : t.toUtc = .ok u) :
    write u.truncate = write t := by
  have ho : u.truncate.offset = some 0 := (Instant.offset_truncate u).trans (Instant.offset_of_toUtc hu)
  rw [write_of_toUtc ha hu, write_of_toUtc (Instant.isAware_of_offset ho) (Instant.toUtc_of_offset ho), ofUtcWall_truncate]

end Stamp

/-- A text without lone surrogates. -/
def Value.isProperText : Value → Bool
  | .text t => t.isWellFormed
  | _ => false

theorem Value.exists_of_isProperText {v : Value} (h : v.isProperText = true) :
    ∃ t : Text, v = .text t ∧ t.isWellFormed = true := by
  cases v with
  | text t => exact ⟨t, rfl, h⟩
  | _ => simp [isProperText] at h

private theorem Value.isText_of_isProperText {v : Value} (h : v.isProperText = true) : v.isText = true := by
  obtain ⟨t, rfl, -⟩ := exists_of_isProperText h
  rfl

namespace Entry

/-- All fields but the details are texts, or the correlation id is missing, and no map in the details holds a key
twice. -/
structure IsTextual (e : Entry) : Prop where
  id : e.id.isText = true
  eventType : e.eventType.isText = true
  source : e.source.isText = true
  correlationId : e.correlationId = .null ∨ e.correlationId.isText = true
  previousHash : e.previousHash.isText = true
  currentHash : e.currentHash.isText = true
  uniqueKeys : e.details.hasUniqueKeys = true

/-- All fields but the details are texts without lone surrogates, or the correlation id is missing, and the details
have a canonical text. -/
structure IsStorable (e : Entry) : Prop where
  id : e.id.isProperText = true
  eventType : e.eventType.isProperText = true
  source : e.source.isProperText = true
  correlationId : e.correlationId = .null ∨ e.correlationId.isProperText = true
  previousHash : e.previousHash.isProperText = true
  currentHash : e.currentHash.isProperText = true
  encodable : ∃ t, Canonical.encode e.details = .ok t
  uniqueKeys : e.details.hasUniqueKeys = true

theorem IsStorable.isTextual {e : Entry} (h : e.IsStorable) : e.IsTextual where
  id := Value.isText_of_isProperText h.id
  eventType := Value.isText_of_isProperText h.eventType
  source := Value.isText_of_isProperText h.source
  correlationId := h.correlationId.imp_right Value.isText_of_isProperText
  previousHash := Value.isText_of_isProperText h.previousHash
  currentHash := Value.isText_of_isProperText h.currentHash
  uniqueKeys := h.uniqueKeys

private theorem exists_encode_of_isProperText {v : Value} (h : v.isProperText = true) :
    ∃ t, Canonical.encode v = .ok t := by
  obtain ⟨t, rfl, hw⟩ := Value.exists_of_isProperText h
  exact ⟨Canonical.quote t, by rw [Canonical.encode, Canonical.encodeText, if_pos hw]⟩

theorem IsStorable.encodable_fields {e : Entry} (h : e.IsStorable) :
    ∀ v ∈ [e.id, e.eventType, e.source, e.correlationId, e.details, e.previousHash, e.currentHash],
      ∃ t, Canonical.encode v = .ok t := by
  have hc : ∃ t, Canonical.encode e.correlationId = .ok t := by
    rcases h.correlationId with hn | hp
    · exact ⟨lit "null", by rw [hn, Canonical.encode]⟩
    · exact exists_encode_of_isProperText hp
  simp only [List.mem_cons, List.not_mem_nil, or_false, forall_eq_or_imp, forall_eq]
  exact ⟨exists_encode_of_isProperText h.id, exists_encode_of_isProperText h.eventType,
    exists_encode_of_isProperText h.source, hc, h.encodable, exists_encode_of_isProperText h.previousHash,
    exists_encode_of_isProperText h.currentHash⟩

/-- Two entries say the same of everything but their instants: their texts are the same, and so is the canonical
text of their details. -/
structure Matches (e e' : Entry) : Prop where
  id : e'.id = e.id
  eventType : e'.eventType = e.eventType
  source : e'.source = e.source
  correlationId : e'.correlationId = e.correlationId
  previousHash : e'.previousHash = e.previousHash
  currentHash : e'.currentHash = e.currentHash
  details : Canonical.encode e'.details = Canonical.encode e.details

/-- Matching entries with one stamp have one hash. -/
theorem recomputed_congr {e e' : Entry} (h : e.Matches e') (hs : Stamp.write e'.createdAt = Stamp.write e.createdAt) :
    e'.recomputed = e.recomputed := by
  rw [recomputed, recomputed, Link.hash, Link.hash, Link.hashInput, Link.hashInput, h.previousHash, h.eventType,
    h.details, hs]

theorem reread_of_isText {v : Value} (h : v.isText = true) : Canonical.reread v = v := by
  obtain ⟨t, rfl⟩ := Value.exists_of_isText h
  simp only [Canonical.reread]

private theorem matches_readBack {e : Entry} (h : e.IsTextual) {t : Text} (ht : Canonical.encode e.details = .ok t)
    (createdAt : Instant) : e.Matches (e.readBack createdAt) where
  id := reread_of_isText h.id
  eventType := reread_of_isText h.eventType
  source := reread_of_isText h.source
  correlationId := by
    rcases h.correlationId with hn | hc
    · show Canonical.reread e.correlationId = e.correlationId
      simp only [hn, Canonical.reread]
    · exact reread_of_isText hc
  previousHash := reread_of_isText h.previousHash
  currentHash := reread_of_isText h.currentHash
  details := (Canonical.encode_reread e.details h.uniqueKeys t ht).trans ht.symm

end Entry

namespace FileLog.Line

theorem exists_encode_details (l : Line) : ∃ t, Canonical.encode l.entry.details = .ok t := by
  have h := l.recordBytes_eq
  rw [recordBytes, Fault.bind_eq_ok_iff] at h
  obtain ⟨stamp, -, h⟩ := h
  obtain ⟨details, hd, -⟩ := Fault.bind_eq_ok_iff.mp h
  obtain ⟨t, ht, -⟩ := Fault.map_eq_ok_iff.mp hd
  exact ⟨t, ht⟩

theorem matches_shown {l : Line} (h : l.entry.IsTextual) : l.entry.Matches l.shown := by
  obtain ⟨t, ht⟩ := l.exists_encode_details
  exact Entry.matches_readBack h ht _

theorem isAware_entry (l : Line) : l.entry.createdAt.isAware = true := by
  have h := l.recordBytes_eq
  rw [recordBytes, Fault.bind_eq_ok_iff] at h
  obtain ⟨stamp, hs, -⟩ := h
  exact (Stamp.write_eq_ok_iff.mp hs).1

theorem moment_entry (l : Line) : l.entry.createdAt.moment = l.utc.wall :=
  (Instant.ofWall_eq_ok_iff.mp l.toUtc_eq).1.symm

/-- Reading back cuts the moment to the millisecond. -/
theorem moment_shown (l : Line) :
    l.shown.createdAt.moment = l.entry.createdAt.moment - l.entry.createdAt.moment % Duration.perMilli := by
  have hm : l.shown.createdAt.moment = l.utc.truncate.wall := by
    rw [Instant.moment, l.offset_shown, Option.getD_some, Int.sub_zero]
    rfl
  rw [hm, Instant.wall_truncate, l.moment_entry]
  simp only [Duration.perMilli]
  omega

theorem moment_shown_le (l : Line) : l.shown.createdAt.moment ≤ l.entry.createdAt.moment := by
  rw [l.moment_shown]
  simp only [Duration.perMilli]
  omega

theorem exists_of_recordBytes {e : Entry} {bs : List UInt8} (h : recordBytes e = .ok bs) :
    ∃ l : Line, l.entry = e ∧ l.octets = bs := by
  have hs := h
  rw [recordBytes, Fault.bind_eq_ok_iff] at hs
  obtain ⟨stamp, hstamp, -⟩ := hs
  obtain ⟨-, u, hu, -⟩ := Stamp.write_eq_ok_iff.mp hstamp
  exact ⟨⟨e, u, bs, hu, h⟩, rfl, rfl⟩

theorem recomputed_shown {l : Line} (h : l.entry.IsTextual) : l.shown.recomputed = l.entry.recomputed :=
  Entry.recomputed_congr (matches_shown h) (Stamp.write_truncate l.isAware_entry l.toUtc_eq)

theorem readOctets_octets (l : Line) : Json.readOctets l.octets = .ok (Canonical.reread l.record) := by
  obtain ⟨u, -, ht, ho⟩ := l.exists_braced
  have hends : Json.EndsNumber [] := fun c hc => absurd hc (by simp)
  have hread := (Json.readsAs_of_encode ht).read_append hends
  rw [List.append_nil] at hread
  rw [ho]
  exact (readOctets_encode (by decide) (by decide) _).trans hread

theorem readLine_octets {l : Line} (h : l.IsDated) : readLine l.octets = .ok l.shown := by
  rw [← readLine_of_isDated h, readLine, readLine, readOctets_octets, readOctets_bytes]

theorem readUtf8_octets (l : Line) : Json.readUtf8 l.octets = Json.readOctets l.octets := by
  obtain ⟨u, -, ht, ho⟩ := l.exists_braced
  have hall := Canonical.isWellFormed_of_encode ht
  rw [ho, Json.readUtf8, Utf8.decode?_encode]
  · exact (readOctets_encode (by decide) (by decide) _).symm
  · apply List.all_eq_true.mpr
    intro c hc
    rw [Utf8.allows, List.all_eq_true.mp hall c hc]
    rfl

private theorem readBody_octets {l : Line} (h : l.IsDated) : ObjectLog.readBody l.octets = .ok l.shown := by
  have hline : Json.readOctets l.octets >>= Entry.ofRecord = .ok l.shown := readLine_octets h
  rw [ObjectLog.readBody, l.readUtf8_octets, hline]

end FileLog.Line

namespace Entry

/-- The octets that a log file and a bucket write for an entry. -/
structure IsWrittenAs (e : Entry) (bs : List UInt8) : Prop where
  /-- A log file appends them with a line end. -/
  file : ∀ (path : Text) (d : Draft) (w : Files) (disk : Disk), d.withId (.text w.ids.next) = e →
    Disk.append path (bs ++ [FileLog.newline]) w.disk = (.ok (), disk) →
    FileLog.create path d w = (.ok e, ⟨disk, w.ids.take⟩)
  /-- A bucket puts them under the entry's key. -/
  bucket : ∀ (l : ObjectLog) (d : Draft) (w : Objects) (key : Text) (s : ObjectService),
    d.withId (.text w.ids.next) = e → l.keyFor e = .ok key → w.service.put l.bucket key bs = (.ok (), s) →
    l.create d w = (.ok e, ⟨s, w.ids.take⟩)

theorem isWrittenAs_of_recordBytes {e : Entry} {bs : List UInt8} (h : FileLog.recordBytes e = .ok bs) :
    e.IsWrittenAs bs where
  file path d w disk he hd := by
    simp only [FileLog.create, he, h, hd]
  bucket l d w key s he hk hs := by
    rw [FileLog.recordBytes, Fault.bind_eq_ok_iff] at h
    obtain ⟨stamp, hstamp, h⟩ := h
    obtain ⟨details, hdetails, h⟩ := Fault.bind_eq_ok_iff.mp h
    simp only [ObjectLog.create, he, hstamp, hdetails, hk, h, bind, Except.bind, pure, Except.pure, ObjectLog.attempt,
      hs, Except.map]

/-- An entry is written as octets without a line end, and read back from a log file and from a bucket as an entry
that matches it and has its hash, with its instant cut to the millisecond in UTC. -/
theorem survives_storage {e : Entry} (he : e.IsStorable) {u : Instant} (ha : e.createdAt.isAware = true)
    (hu : e.createdAt.toUtc = .ok u) (hy : 1000 ≤ (Calendar.dateOf (u.wall / Duration.perDay)).year) :
    ∃ bs e', FileLog.recordBytes e = .ok bs ∧ e.IsWrittenAs bs ∧ FileLog.newline ∉ bs ∧
      FileLog.readLine bs = .ok e' ∧ FileLog.readLine (bs ++ [FileLog.newline]) = .ok e' ∧
      ObjectLog.readBody bs = .ok e' ∧
      e.Matches e' ∧ e'.createdAt = u.truncate ∧ e'.recomputed = e.recomputed := by
  obtain ⟨l, rfl, rfl⟩ := FileLog.Line.exists_of_encodable ha hu he.encodable_fields
  have hd : l.IsDated := hy
  exact ⟨l.octets, l.shown, l.recordBytes_eq, isWrittenAs_of_recordBytes l.recordBytes_eq, l.newline_not_mem_octets,
    FileLog.Line.readLine_octets hd, FileLog.Line.readLine_of_isDated hd, FileLog.Line.readBody_octets hd,
    FileLog.Line.matches_shown he.isTextual, rfl, FileLog.Line.recomputed_shown he.isTextual⟩

/-- A map with its keys out of order and a tuple of a five and a negative zero, at a time an hour east of UTC. -/
theorem survives_storage_of_tuple :
    let t : Instant := ⟨63900003600123456, some 3600000000, by decide⟩
    let u : Instant := ⟨63900000000123000, some 0, by decide⟩
    let numbers : Value := .tuple [.float ⟨0x4014000000000000⟩, .float ⟨0x8000000000000000⟩]
    let details : Value := .map [(.text (lit "b"), numbers), (.text (lit "a"), .null)]
    let e : Entry := ⟨.text (lit "1"), .text (lit "login"), .text (lit "api"), .null, details, .text genesisHash,
      .text (lit "x"), t⟩
    ∃ bs e', FileLog.recordBytes e = .ok bs ∧ FileLog.newline ∉ bs ∧
      FileLog.readLine (bs ++ [FileLog.newline]) = .ok e' ∧ ObjectLog.readBody bs = .ok e' ∧
      e.Matches e' ∧ e'.createdAt = u ∧ e'.recomputed = e.recomputed := by
  intro t u numbers details e
  have hn : ∃ s, Canonical.encode numbers = .ok s := ⟨_, rfl⟩
  have hfields : ∀ f ∈ [(lit "b", numbers), (lit "a", Value.null)],
      f.1.isWellFormed = true ∧ ∃ s, Canonical.encode f.2 = .ok s := by
    simp only [List.mem_cons, List.not_mem_nil, or_false, forall_eq_or_imp, forall_eq, Text.isWellFormed_lit, true_and]
    exact ⟨hn, _, rfl⟩
  have hd : ∃ s, Canonical.encode details = .ok s := Canonical.exists_encode_map hfields
  have he : e.IsStorable := ⟨by decide, by decide, by decide, .inl rfl, by decide +kernel, by decide, hd, by decide⟩
  have hu : t.toUtc = .ok ⟨63900000000123456, some 0, by decide⟩ :=
    Instant.ofWall_eq_ok_iff.mpr ⟨by decide +kernel, rfl⟩
  obtain ⟨bs, e', hb, -, hline, -, hfile, hbucket, hm, hc, hr⟩ := survives_storage he rfl hu (by decide +kernel)
  exact ⟨bs, e', hb, hline, hfile, hbucket, hm, hc, hr⟩

end Entry

end AuditTrail
