import AuditTrail.Proofs.Storage.Misfits

/-!
# A log that grows

Whatever a log file was made of, as long as its last line has its line end, each entry that is acknowledged adds one line
to it, and an entry that is not acknowledged adds nothing (`FileLog.createEach_grows`). If the log could be read, it
is read as the entries it had and the new ones, unless the stamp of a new one has a year before 1000: such an entry is
acknowledged too, and from then on no read succeeds (`FileLog.reads_after_creations`).
-/

namespace AuditTrail

/-- Creates drafts one after the other, whatever becomes of each of them; the entries that are acknowledged. -/
def Store.createEach {W : Type} (store : Store W) : List Draft → W → List Entry × W
  | [], w => ([], w)
  | d :: ds, w =>
    let made := store.create d w
    let rest := store.createEach ds made.2
    (made.1.toOption.toList ++ rest.1, rest.2)

namespace FileLog

/-- Octets of which all lines have their line ends. -/
def EndsLine (content : List UInt8) : Prop := ∀ b ∈ content.getLast?, b = newline

private theorem EndsLine.tail {b : UInt8} {bs : List UInt8} (h : EndsLine (b :: bs)) : EndsLine bs := by
  cases bs with
  | nil => exact fun c hc => absurd hc (by simp)
  | cons c bs =>
    rw [EndsLine, List.getLast?_cons_cons] at h
    exact h

private theorem completeLines_append_of_endsLine {content : List UInt8} (h : EndsLine content) {begun : List UInt8}
    (hb : content = [] → begun = []) (more : List UInt8) :
    completeLines begun (content ++ more) = completeLines begun content ++ completeLines [] more := by
  induction content generalizing begun with
  | nil =>
    rw [hb rfl]
    rfl
  | cons b bs ih =>
    rw [List.cons_append, completeLines, completeLines]
    by_cases hn : b = newline
    · rw [if_pos hn, if_pos hn, ih h.tail (fun _ => rfl), List.cons_append]
    · rw [if_neg hn, if_neg hn]
      refine ih h.tail fun hnil => ?_
      subst hnil
      exact absurd (h b rfl) hn

private theorem logLines_append {content : List UInt8} (h : EndsLine content) (lines : List Line) :
    logLines (content ++ lines.flatMap Line.bytes) = logLines content ++ lines.map Line.bytes := by
  rw [logLines, completeLines_append_of_endsLine h (fun _ => rfl), List.filter_append, completeLines_bytes, filter_bytes,
    logLines]

private theorem readLines_append {content : List UInt8} (h : EndsLine content) {es : List Entry}
    (hes : readLines content = .ok es) (lines : List Line) :
    readLines (content ++ lines.flatMap Line.bytes) = ((lines.map Line.bytes).mapM readLine).map (es ++ ·) := by
  have hlog : (logLines content).mapM readLine = .ok es := hes
  show (logLines _).mapM readLine = _
  rw [logLines_append h, List.mapM_append, hlog]
  cases (lines.map Line.bytes).mapM readLine <;> rfl

theorem exists_mapM_readLine_error {lines : List Line} (h : ∃ l ∈ lines, ¬l.IsDated) :
    ∃ f, (lines.map Line.bytes).mapM readLine = .error f ∧ isReadFault f = true := by
  cases hm : (lines.map Line.bytes).mapM readLine with
  | ok es =>
    obtain ⟨l, hl, hd⟩ := h
    obtain ⟨e, he⟩ := Fault.exists_of_mapM_eq_ok hm (List.mem_map_of_mem hl)
    rw [Line.readLine_of_not_isDated hd] at he
    exact absurd he (by simp)
  | error f =>
    obtain ⟨bs, hb, hf⟩ := Fault.exists_of_mapM_eq_error hm
    obtain ⟨k, -, rfl⟩ := List.mem_map.mp hb
    exact ⟨f, rfl, Line.isReadFault_of_readLine hf⟩

variable {path : Text} {w : Files} {content : List UInt8}

/-- The acknowledged entries are the entries of the lines that a log grows by. -/
theorem createEach_grows (ds : List Draft) (hr : w.disk.read path = .ok content) :
    ∃ (lines : List Line) (w' : Files), (store path).createEach ds w = (lines.map Line.entry, w') ∧
      w'.disk.read path = .ok (content ++ lines.flatMap Line.bytes) := by
  induction ds generalizing w content with
  | nil => exact ⟨[], w, rfl, by rw [List.flatMap_nil, List.append_nil, hr]⟩
  | cons d ds ih =>
    have hcons : (store path).createEach (d :: ds) w =
        ((create path d w).1.toOption.toList ++ ((store path).createEach ds (create path d w).2).1,
          ((store path).createEach ds (create path d w).2).2) := rfl
    rcases create_cases hr d with ⟨⟨f, hfault⟩, hsame⟩ | ⟨l, -, hmade, hread⟩
    · obtain ⟨lines, w', hrest, hgrown⟩ := ih (hsame ▸ hr)
      rw [hcons, hfault, hrest]
      exact ⟨lines, w', rfl, hgrown⟩
    · obtain ⟨lines, w', hrest, hgrown⟩ := ih hread
      rw [hcons, hmade, hrest]
      exact ⟨l :: lines, w', rfl, by rw [hgrown, List.flatMap_cons, List.append_assoc]⟩

/-- Drafts are created in a log that can be read, whatever it is made of, as long as its last line has its line end.
If the UTC years of all entries that are acknowledged have four digits, every later read finds the earlier entries and
the new ones, each of which is read back with its own fields and the millisecond of its instant. Otherwise every later
read fails. -/
theorem reads_after_creations (hc : EndsLine content) (hr : w.disk.read path = .ok content) {es : List Entry}
    (hes : readLines content = .ok es) (ds : List Draft) :
    ∃ (lines : List Line) (w' : Files), (store path).createEach ds w = (lines.map Line.entry, w') ∧
      (∀ l ∈ lines, l.shown.createdAt = l.utc.truncate ∧ (l.entry.IsTextual → l.entry.Matches l.shown)) ∧
      ((∀ l ∈ lines, l.IsDated) → Answers path w' ((es ++ lines.map Line.shown).mergeSort Ordered.le)) ∧
      ((∃ l ∈ lines, ¬l.IsDated) → ∃ cause, Refuses path w' (.unreadable path cause)) := by
  obtain ⟨lines, w', hcreated, hread⟩ := createEach_grows ds hr
  have hlines := readLines_append hc hes lines
  refine ⟨lines, w', hcreated, fun l _ => ⟨rfl, Line.matches_shown⟩, ?_, ?_⟩
  · intro hdated
    rw [mapM_readLine hdated] at hlines
    exact answers_of_readLines_ok hread hlines
  · intro hshort
    obtain ⟨f, hf, hfault⟩ := exists_mapM_readLine_error hshort
    rw [hf] at hlines
    exact ⟨f, refuses_of_readLines hread hlines hfault⟩

private theorem Line.eq_of_entry_eq {k l : Line} (h : k.entry = l.entry) : k = l := by
  obtain ⟨e, u, bs, hu, hb⟩ := k
  obtain ⟨e', u', bs', hu', hb'⟩ := l
  obtain rfl : e = e' := h
  obtain rfl := Except.ok.inj (hu.symm.trans hu')
  obtain rfl := Except.ok.inj (hb.symm.trans hb')
  rfl

theorem Line.exists_of_bare {t : Instant} (ht : t.offset = some 0) (id : Text) (hid : id.isWellFormed = true) :
    ∃ l : Line, l.entry = ⟨.text id, .text (lit "a"), .text (lit "m"), .null, .list [], .text (lit "0"), .text (lit "0"), t⟩ ∧
      l.utc = t := by
  refine exists_of_encodable ?_ (Instant.toUtc_of_offset ht) ?_
  · show t.offset.isSome = true
    rw [ht]
    rfl
  · simp only [List.mem_cons, List.not_mem_nil, or_false, forall_eq_or_imp, forall_eq]
    refine ⟨⟨Canonical.quote id, ?_⟩, ⟨_, rfl⟩, ⟨_, rfl⟩, ⟨_, rfl⟩, ⟨_, rfl⟩, ⟨_, rfl⟩, ⟨_, rfl⟩⟩
    rw [Canonical.encode, Canonical.encodeText, if_pos hid]

/-- An entry is found in a log that was empty. Then one of the last second of the year 999 is acknowledged, and all of
the log is lost. -/
theorem reads_after_creations_of_short_year :
    let d : Draft := ⟨.text (lit "a"), .text (lit "m"), .null, .list [], .text (lit "0"), .text (lit "0"),
      ⟨63900000000000123, some 0, by decide⟩⟩
    let short : Draft := { d with createdAt := ⟨31525372799000000, some 0, by decide⟩ }
    let w : Files := ⟨⟨[([lit "log"], .file [])]⟩, default⟩
    ∃ (e e' found : Entry) (v v' : Files),
      (store (lit "log")).createEach [d] w = ([e], v) ∧ Answers (lit "log") v [found] ∧
      found.createdAt = ⟨63900000000000000, some 0, by decide⟩ ∧
      (store (lit "log")).createEach [d, short] w = ([e, e'], v') ∧
      ∃ cause, Refuses (lit "log") v' (.unreadable (lit "log") cause) := by
  intro d short w
  obtain ⟨l, hl, hlu⟩ := Line.exists_of_bare (t := d.createdAt) rfl w.ids.next (by decide)
  obtain ⟨k, hk, hku⟩ := Line.exists_of_bare (t := short.createdAt) rfl w.ids.take.next (by decide)
  have hc : EndsLine [] := fun b hb => absurd hb (by simp)
  have hempty : w.disk.read (lit "log") = .ok [] := rfl
  have hnone : readLines [] = .ok [] := rfl
  obtain ⟨disk, hfirst, hread⟩ := create_line hempty (d := d) hl
  obtain ⟨disk', hsecond, -⟩ := create_line (w := ⟨disk, w.ids.take⟩) hread (d := short) hk
  have hone : (store (lit "log")).createEach [d] w = ([l.entry], ⟨disk, w.ids.take⟩) := by
    have hfirst : (store (lit "log")).create d w = _ := hfirst
    simp only [Store.createEach, hfirst]
    rfl
  have htwo : (store (lit "log")).createEach [d, short] w = ([l.entry, k.entry], ⟨disk', w.ids.take.take⟩) := by
    have hfirst : (store (lit "log")).create d w = _ := hfirst
    have hsecond : (store (lit "log")).create short ⟨disk, w.ids.take⟩ = _ := hsecond
    simp only [Store.createEach, hfirst, hsecond]
    rfl
  have hsame : ∀ {lines : List Line} (ks : List Line), lines.map Line.entry = ks.map Line.entry → lines = ks :=
    fun _ h => List.map_injective_iff.mpr (fun _ _ => Line.eq_of_entry_eq) h
  obtain ⟨lines, v, hgrown, hshown, hanswers, -⟩ := reads_after_creations hc hempty hnone [d]
  rw [hone, Prod.mk.injEq] at hgrown
  obtain ⟨hentries, rfl⟩ := hgrown
  obtain rfl := hsame [l] hentries.symm
  obtain ⟨lines', v', hgrown', -, -, hrefuses⟩ := reads_after_creations hc hempty hnone [d, short]
  rw [htwo, Prod.mk.injEq] at hgrown'
  obtain ⟨hentries', rfl⟩ := hgrown'
  obtain rfl := hsame [l, k] hentries'.symm
  have hdated : l.IsDated := by
    rw [Line.IsDated, hlu]
    decide +kernel
  have hshort : ¬k.IsDated := by
    rw [Line.IsDated, hku]
    decide +kernel
  refine ⟨l.entry, k.entry, l.shown, _, _, hone, ?_, ?_, htwo, hrefuses ⟨k, by simp, hshort⟩⟩
  · have ha := hanswers fun r hr => List.mem_singleton.mp hr ▸ hdated
    rwa [List.nil_append, List.map_singleton, List.mergeSort_singleton] at ha
  · rw [(hshown l List.mem_cons_self).1, hlu]
    decide +kernel

end FileLog

end AuditTrail
