import AuditTrail.Proofs.Canonical.Shape
import AuditTrail.Proofs.Json.Consumed
import AuditTrail.Proofs.Json.Reading
import AuditTrail.Proofs.Storage.Records
import AuditTrail.Proofs.Text.CutOctets
import AuditTrail.Proofs.Time.StampReading
import AuditTrail.Storage.FileLog

/-!
# The lines of a log file

A line that an entry was appended as is read back as that entry, if the year of its stamp has four digits
(`Line.readLine_of_isDated`). The front of a line with another line right behind it is no line at all, wherever the
front was cut off (`Line.readLine_torn`).
-/

namespace AuditTrail.FileLog

open Canonical

/-- A line that an entry is appended as, without its line end. -/
structure Line where
  entry : Entry
  utc : Instant
  octets : List UInt8
  toUtc_eq : entry.createdAt.toUtc = .ok utc
  recordBytes_eq : recordBytes entry = .ok octets

namespace Line

def bytes (l : Line) : List UInt8 := l.octets ++ [newline]

/-- The year of the line's stamp has four digits. -/
def IsDated (l : Line) : Prop := 1000 ≤ (Calendar.dateOf (l.utc.wall / Duration.perDay)).year

def shown (l : Line) : Entry := l.entry.readBack l.utc.truncate

def record (l : Line) : Value :=
  .map (l.entry.recordFields (listed l.entry.details) (Stamp.ofUtcWall l.utc.wall))

theorem offset_shown (l : Line) : l.shown.createdAt.offset = some 0 :=
  (Instant.offset_truncate _).trans (Instant.offset_of_toUtc l.toUtc_eq)

theorem isAware_shown (l : Line) : l.shown.createdAt.isAware = true := Instant.isAware_of_offset l.offset_shown

private theorem exists_text (l : Line) : ∃ t, encode l.record = .ok t ∧ l.octets = Utf8.encode t := by
  have h := l.recordBytes_eq
  rw [recordBytes, Fault.bind_eq_ok_iff] at h
  obtain ⟨stamp, hs, h⟩ := h
  obtain ⟨details, hd, h⟩ := Fault.bind_eq_ok_iff.mp h
  obtain ⟨t, ht, ho⟩ := Fault.map_eq_ok_iff.mp h
  obtain ⟨_, -, rfl⟩ := Fault.map_eq_ok_iff.mp hd
  obtain ⟨-, u, hu, rfl⟩ := Stamp.write_eq_ok_iff.mp hs
  rw [l.toUtc_eq, Except.ok.injEq] at hu
  subst hu
  exact ⟨t, ht, ho.symm⟩

theorem exists_braced (l : Line) : ∃ u, Balanced (CodePoint.ofChar '"' :: u) ∧
    encode l.record = .ok (lit "\x7b" ++ (CodePoint.ofChar '"' :: u) ++ lit "\x7d") ∧
    l.octets = Utf8.encode (lit "\x7b" ++ (CodePoint.ofChar '"' :: u) ++ lit "\x7d") := by
  obtain ⟨t, ht, ho⟩ := l.exists_text
  obtain ⟨rs, hr, hf⟩ := find?_reread (l.entry.nodup_recordPairs (listed l.entry.details) (Stamp.ofUtcWall l.utc.wall))
  have hne : rs ≠ [] := by
    rintro rfl
    have hid := hf (lit "id") l.entry.id (by simp [Entry.recordPairs])
    simp [Value.find?] at hid
  obtain ⟨u, rfl, hu⟩ := (hereditary_braced.of_encode _ _ ht).2 rs hr hne
  exact ⟨u, hu, ht, ho⟩

theorem exists_of_encodable {e : Entry} {u : Instant} (ha : e.createdAt.isAware = true) (hu : e.createdAt.toUtc = .ok u)
    (hf : ∀ v ∈ [e.id, e.eventType, e.source, e.correlationId, e.details, e.previousHash, e.currentHash],
      ∃ t, encode v = .ok t) : ∃ l : Line, l.entry = e ∧ l.utc = u := by
  have hstamp : encode (.text (Stamp.ofUtcWall u.wall)) = .ok (quote (Stamp.ofUtcWall u.wall)) := by
    rw [encode, encodeText, if_pos (StampReader.isWellFormed_ofUtcWall u.wall)]
  have hfields : ∀ f ∈ e.recordPairs (listed e.details) (Stamp.ofUtcWall u.wall),
      f.1.isWellFormed = true ∧ ∃ t, encode f.2 = .ok t := by
    simp only [List.mem_cons, List.not_mem_nil, or_false, forall_eq_or_imp, forall_eq] at hf
    simp only [Entry.recordPairs, List.mem_cons, List.not_mem_nil, or_false, forall_eq_or_imp, forall_eq,
      Text.isWellFormed_lit, true_and, encode_listed]
    exact ⟨hf.1, hf.2.1, hf.2.2.1, hf.2.2.2.1, hf.2.2.2.2.1, hf.2.2.2.2.2.1, hf.2.2.2.2.2.2, _, hstamp⟩
  obtain ⟨t, ht⟩ := exists_encode_map hfields
  obtain ⟨d, hd⟩ := hf e.details (by simp)
  refine ⟨⟨e, u, Utf8.encode t, hu, ?_⟩, rfl, rfl⟩
  rw [recordBytes, Stamp.write_of_toUtc ha hu]
  simp only [bind, Except.bind, toJson, hd, Except.map, encodeBytes]
  rw [Entry.recordFields_eq, ht]

theorem newline_not_mem_octets (l : Line) : newline ∉ l.octets := by
  obtain ⟨t, ht, ho⟩ := l.exists_text
  rw [ho]
  intro hm
  have hle := Utf8.le_of_mem_encode (fun c hc => le_of_mem_encode ht hc) hm
  exact absurd hle (by decide)

end Line

/-- White space that the reader of lines passes over. -/
def lineEnd : CodePoint := CodePoint.ofChar '\n'

private theorem encode_lineEnd (t : Text) : Utf8.encode (t ++ [lineEnd]) = Utf8.encode t ++ [newline] := by
  rw [Utf8.encode_append]
  rfl

theorem readOctets_encode {c : CodePoint} (hc : c.val ≠ 0) (hc' : c.val < 0x80) (t : Text) :
    Json.readOctets (Utf8.encode (CodePoint.ofChar '{' :: c :: t)) = Json.read (CodePoint.ofChar '{' :: c :: t) := by
  have hb : c.val.toUInt8 ≠ 0 := by
    intro h
    have hv := congrArg UInt8.toNat h
    rw [Utf8.toNat_toUInt8 (by omega)] at hv
    exact hc hv
  have he : Utf8.encode (CodePoint.ofChar '{' :: c :: t) = 0x7B :: c.val.toUInt8 :: Utf8.encode t := by
    have ho : Utf8.ofCodePoint c = [c.val.toUInt8] := by
      rw [Utf8.ofCodePoint]
      exact if_pos hc'
    rw [Utf8.encode_cons, Utf8.encode_cons, ho]
    rfl
  rw [Json.readOctets, he, Octets.decode?_of_brace hb, ← he, Utf8.decode?_encode (Utf8.all_accepted _)]

namespace Line

theorem readOctets_bytes (l : Line) : Json.readOctets l.bytes = .ok (reread l.record) := by
  obtain ⟨u, -, ht, ho⟩ := l.exists_braced
  have hends : Json.EndsNumber [lineEnd] := Json.endsNumber_cons (by decide)
  have hskip : Json.skip [lineEnd] = [] := rfl
  have hread := (Json.readsAs_of_encode ht).read_append hends
  rw [hskip] at hread
  rw [bytes, ho, ← encode_lineEnd]
  exact (readOctets_encode (by decide) (by decide) _).trans hread

private theorem readLine_bytes (l : Line) : readLine l.bytes =
    (StampReader.read (Stamp.ofUtcWall l.utc.wall)).map fun t => l.entry.readBack t := by
  rw [readLine, l.readOctets_bytes]
  exact l.entry.ofRecord_reread _

theorem readLine_of_isDated {l : Line} (h : l.IsDated) : readLine l.bytes = .ok l.shown := by
  have ho := (Instant.ofWall_eq_ok_iff.mp l.toUtc_eq).2
  rw [readLine_bytes, StampReader.read_ofUtcWall ho h]
  rfl

theorem readLine_of_not_isDated {l : Line} (h : ¬l.IsDated) :
    readLine l.bytes = .error (.platform .malformedValue) := by
  rw [readLine_bytes, StampReader.read_of_shortYear (Nat.lt_of_not_le h)]
  rfl

end Line

/-- The front of a text in braces with another such text right behind it is not JSON. -/
private theorem read_torn {v : Value} {u u' s r : Text} (hu : Balanced (CodePoint.ofChar '"' :: u))
    (ht : encode v = .ok (lit "\x7b" ++ (CodePoint.ofChar '"' :: u) ++ lit "\x7d"))
    (hs : s ++ r = lit "\x7b" ++ (CodePoint.ofChar '"' :: u) ++ lit "\x7d") (hne : s ≠ [])
    (hu' : Balanced (CodePoint.ofChar '{' :: u')) : ∃ f, Json.read (s ++ (CodePoint.ofChar '{' :: u' ++ [lineEnd])) =
      .error f := by
  have hend : Balanced [lineEnd] := rfl
  cases hr : Json.read (s ++ (CodePoint.ofChar '{' :: u' ++ [lineEnd])) with
  | error f => exact ⟨f, rfl⟩
  | ok v' =>
    have hb := Json.balanced_of_read hr
    have hfront := Balanced.of_append_brace hb (hu'.append hend)
    -- The front is a whole text, behind which only white space may follow.
    rw [Balanced.eq_of_front hu hs hne hfront] at hr
    have hends : Json.EndsNumber (CodePoint.ofChar '{' :: u' ++ [lineEnd]) := Json.endsNumber_cons (by decide)
    rw [(Json.readsAs_of_encode ht).read_append hends, List.cons_append, Json.skip_cons rfl] at hr
    exact absurd hr (by simp)

namespace Line

theorem exists_bytes (l : Line) : ∃ u, Balanced (CodePoint.ofChar '{' :: u) ∧
    l.bytes = Utf8.encode (CodePoint.ofChar '{' :: u ++ [lineEnd]) := by
  obtain ⟨u, -, ht, ho⟩ := l.exists_braced
  refine ⟨CodePoint.ofChar '"' :: u ++ lit "\x7d", balanced_of_encode ht, ?_⟩
  rw [bytes, ho, ← encode_lineEnd]
  rfl

private theorem exists_second {u s r x : Text} (hs : s ++ r = lit "\x7b" ++ (CodePoint.ofChar '"' :: u) ++ lit "\x7d")
    (hne : s ≠ []) : ∃ c w, s ++ CodePoint.ofChar '{' :: x = CodePoint.ofChar '{' :: c :: w ∧ c.val ≠ 0 ∧ c.val < 0x80 := by
  have hl : lit "\x7b" = [CodePoint.ofChar '{'] := rfl
  rw [hl, List.append_assoc, List.singleton_append, List.cons_append] at hs
  match s, hne with
  | [d], _ =>
    obtain rfl : d = CodePoint.ofChar '{' := List.head_eq_of_cons_eq hs
    exact ⟨CodePoint.ofChar '{', x, rfl, by decide, by decide⟩
  | d :: e :: s, _ =>
    rw [List.cons_append, List.cons_append, List.cons.injEq, List.cons.injEq] at hs
    obtain ⟨rfl, rfl, -⟩ := hs
    exact ⟨CodePoint.ofChar '"', s ++ CodePoint.ofChar '{' :: x, rfl, by decide, by decide⟩

theorem isReadFault_of_readLine {l : Line} {f : Fault} (h : readLine l.bytes = .error f) : isReadFault f = true := by
  by_cases hd : l.IsDated
  · rw [readLine_of_isDated hd] at h
    exact absurd h (by simp)
  · rw [readLine_of_not_isDated hd, Except.error.injEq] at h
    rw [← h]
    rfl

/-- A front that ends between two characters is read together with the next line. -/
private theorem readLine_of_front {v : Value} {u s r : Text} (hu : Balanced (CodePoint.ofChar '"' :: u))
    (ht : encode v = .ok (lit "\x7b" ++ (CodePoint.ofChar '"' :: u) ++ lit "\x7d"))
    (hs : s ++ r = lit "\x7b" ++ (CodePoint.ofChar '"' :: u) ++ lit "\x7d") (hne : s ≠ []) (l : Line) :
    ∃ f, readLine (Utf8.encode s ++ l.bytes) = .error f ∧ isReadFault f = true := by
  obtain ⟨u', hu', hb'⟩ := l.exists_bytes
  obtain ⟨c, w, hw, hc, hc'⟩ := exists_second (x := u' ++ [lineEnd]) hs hne
  obtain ⟨f, hr⟩ := read_torn hu ht hs hne hu'
  refine ⟨f, ?_, ?_⟩
  · rw [List.cons_append, hw] at hr
    rw [readLine, hb', ← Utf8.encode_append, List.cons_append, hw, readOctets_encode hc hc', hr]
    rfl
  · rcases Json.eq_of_read_eq_error hr with rfl | rfl
    · rfl
    · rfl

/-- A front that ends inside a character is not UTF-8 in front of the next line. -/
private theorem readLine_of_cut {u s r : Text} {c : CodePoint} {part : List UInt8}
    (hs : s ++ c :: r = lit "\x7b" ++ (CodePoint.ofChar '"' :: u) ++ lit "\x7d") (hcut : Utf8.Cut c part) (l : Line) :
    readLine (Utf8.encode s ++ part ++ l.bytes) = .error (.platform .undecodableOctets) := by
  have hl : lit "\x7b" = [CodePoint.ofChar '{'] := rfl
  have hcontinuation : Utf8.continuation? 0x7B = none := by decide
  obtain ⟨u', -, hb'⟩ := l.exists_bytes
  rw [hl, List.append_assoc, List.singleton_append, List.cons_append] at hs
  -- The brace and the quotation mark are single octets, so that both of them are there.
  match s with
  | [] =>
    obtain rfl : c = CodePoint.ofChar '{' := List.head_eq_of_cons_eq hs
    exact absurd hcut (Utf8.not_cut_of_lt (by decide) part)
  | [d] =>
    obtain rfl : c = CodePoint.ofChar '"' := List.head_eq_of_cons_eq (List.tail_eq_of_cons_eq hs)
    exact absurd hcut (Utf8.not_cut_of_lt (by decide) part)
  | d :: e :: s =>
    rw [List.cons_append, List.cons_append, List.cons.injEq, List.cons.injEq] at hs
    obtain ⟨rfl, rfl, -⟩ := hs
    have hstart : ∀ rest, Utf8.encode (CodePoint.ofChar '{' :: CodePoint.ofChar '"' :: s) ++ rest =
        0x7B :: 0x22 :: (Utf8.encode s ++ rest) := by
      intro rest
      rw [Utf8.encode_cons, Utf8.encode_cons]
      rfl
    have hnext : l.bytes = 0x7B :: Utf8.encode (u' ++ [lineEnd]) := by
      rw [hb', List.cons_append, Utf8.encode_cons]
      rfl
    have hnone : Utf8.decode? .accepted (Utf8.encode (CodePoint.ofChar '{' :: CodePoint.ofChar '"' :: s) ++
        (part ++ 0x7B :: Utf8.encode (u' ++ [lineEnd]))) = none := Utf8.decode?_of_cut _ hcut hcontinuation
    rw [List.append_assoc, hnext, readLine, Json.readOctets, hstart, Octets.decode?_of_brace (by decide), ← hstart, hnone]
    rfl

/-- The front of a line with a whole line right behind it cannot be read. -/
theorem readLine_torn (l l' : Line) {front : List UInt8} (hf : front <+: l.octets) (hne : front ≠ []) :
    ∃ f, readLine (front ++ l'.bytes) = .error f ∧ isReadFault f = true := by
  obtain ⟨u, hu, ht, ho⟩ := l.exists_braced
  obtain ⟨more, hm⟩ := hf
  rw [ho] at hm
  obtain ⟨s, r, hs, hfront⟩ := Utf8.prefix_encode hm
  rcases hfront with rfl | ⟨c, v, part, rfl, hcut, rfl⟩
  · have hsne : s ≠ [] := by
      rintro rfl
      exact hne rfl
    exact readLine_of_front hu ht hs.symm hsne l'
  · exact ⟨_, readLine_of_cut hs.symm hcut l', rfl⟩

end Line

end AuditTrail.FileLog
