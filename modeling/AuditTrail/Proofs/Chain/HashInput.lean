import AuditTrail.Chain.Link
import AuditTrail.Proofs.Canonical.Scanning
import AuditTrail.Proofs.Time.Stamps

/-!
# What a hash covers

The text that a hash covers has bars between its parts, and an event type and quoted texts may hold
bars of their own. Yet the text determines its parts: neither the hash in front nor the stamp holds a
bar, and no canonical text is the end of another one behind a bar
(`hashInput_injective`).
-/

namespace AuditTrail

/-- The mark between the parts of the text that a hash covers. -/
def bar : CodePoint := CodePoint.ofChar '|'

private theorem lit_bar : lit "|" = [bar] := rfl

namespace Instant

theorem truncate_eq_of_milli {t u v w : Instant} (hv : t.toUtc = .ok v) (hw : u.toUtc = .ok w)
    (h : v.wall / Duration.perMilli = w.wall / Duration.perMilli) : v.truncate = w.truncate := by
  have hov : v.offset = some 0 := (ofWall_eq_ok_iff.mp hv).2
  have how : w.offset = some 0 := (ofWall_eq_ok_iff.mp hw).2
  have hm : v.wall - v.wall % Duration.perMilli = w.wall - w.wall % Duration.perMilli := by
    simp only [Duration.perMilli] at h ⊢
    omega
  simp only [truncate, Instant.mk.injEq]
  exact ⟨hm, hov.trans how.symm⟩

end Instant

namespace Link

/-- The text that a hash covers is put together once the details have a canonical text and the
instant has a stamp. -/
theorem hashInput_eq_ok_iff {p t x : Text} {c : Instant} {d : Value} :
    hashInput (.text p) (.text t) c d = .ok x ↔
      ∃ body stamp, Canonical.encode d = .ok body ∧ Stamp.write c = .ok stamp ∧
        x = p ++ lit "|" ++ t ++ lit "|" ++ stamp ++ lit "|" ++ body := by
  have hs : ∀ s : Text, shown (.text s) = .ok s := fun _ => rfl
  unfold hashInput
  rw [hs, hs]
  cases hd : Canonical.encode d with
  | error f => simp [bind, Except.bind]
  | ok body =>
    cases hw : Stamp.write c with
    | error f => simp [bind, Except.bind]
    | ok stamp => simp [bind, Except.bind, pure, Except.pure, eq_comm]

theorem hashInput_of_ok (p t : Text) {c : Instant} {d : Value} {body stamp : Text}
    (hd : Canonical.encode d = .ok body) (hs : Stamp.write c = .ok stamp) :
    hashInput (.text p) (.text t) c d = .ok (p ++ lit "|" ++ t ++ lit "|" ++ stamp ++ lit "|" ++ body) :=
  hashInput_eq_ok_iff.mpr ⟨body, stamp, hd, hs, rfl⟩

private theorem eq_of_append_bar {s t : Text} (hs : bar ∉ s) (ht : bar ∉ t) {x y : Text}
    (h : x ++ bar :: s = y ++ bar :: t) : x = y ∧ s = t := by
  have hr := congrArg (Text.cut bar) (congrArg List.reverse h)
  have hc : ∀ {u v : Text}, bar ∉ u → Text.cut bar (v ++ bar :: u).reverse = (u.reverse, some v.reverse) := by
    intro u v hu
    rw [List.reverse_append, List.reverse_cons, List.append_assoc]
    exact Text.cut_append (fun hm => hu (List.mem_reverse.mp hm)) v.reverse
  rw [hc hs, hc ht, Prod.mk.injEq, Option.some.injEq, List.reverse_inj, List.reverse_inj] at hr
  exact ⟨hr.2, hr.1⟩

private theorem length_le_of_append_bar {x y s t : Text} (hs : Balanced s) (ht : Balanced t)
    (h : x ++ bar :: s = y ++ bar :: t) : t.length ≤ s.length := by
  rcases Nat.lt_or_ge s.length t.length with hlt | hge
  · exfalso
    obtain ⟨front, hf⟩ : ∃ front, bar :: t = front ++ bar :: s := by
      rcases List.append_eq_append_iff.mp h with ⟨z, -, hz⟩ | ⟨z, -, hz⟩
      · have := congrArg List.length hz
        simp only [List.length_append, List.length_cons] at this
        omega
      · exact ⟨z, hz⟩
    cases front with
    | nil =>
      have := congrArg List.length hf
      simp only [List.nil_append, List.length_cons] at this
      omega
    | cons c front =>
      have he : t = front ++ lit "|" ++ s := by
        rw [List.cons_append] at hf
        rw [(List.cons.inj hf).2, lit_bar, List.append_assoc, List.singleton_append]
      exact ht.ne_append_bar hs he
  · exact hge

theorem parts_injective {p q t u stamp stamp' body body' : Text} (hp : bar ∉ p) (hq : bar ∉ q)
    (hs : bar ∉ stamp) (hs' : bar ∉ stamp') (hb : Balanced body) (hb' : Balanced body')
    (h : p ++ lit "|" ++ t ++ lit "|" ++ stamp ++ lit "|" ++ body =
      q ++ lit "|" ++ u ++ lit "|" ++ stamp' ++ lit "|" ++ body') :
    p = q ∧ t = u ∧ stamp = stamp' ∧ body = body' := by
  simp only [lit_bar, List.append_assoc, List.cons_append, List.nil_append] at h
  have hc := congrArg (Text.cut bar) h
  rw [Text.cut_append hp, Text.cut_append hq, Prod.mk.injEq, Option.some.injEq] at hc
  obtain ⟨hpq, hr⟩ := hc
  -- The canonical texts at the end are as long, so the parts in front are equal too.
  have hr' : (t ++ bar :: stamp) ++ bar :: body = (u ++ bar :: stamp') ++ bar :: body' := by
    simpa only [List.append_assoc, List.cons_append] using hr
  have hlen : body.length = body'.length :=
    Nat.le_antisymm (length_le_of_append_bar hb' hb hr'.symm) (length_le_of_append_bar hb hb' hr')
  obtain ⟨hfront, hbody⟩ := List.append_inj' hr' (by rw [List.length_cons, List.length_cons, hlen])
  obtain ⟨htu, hstamp⟩ := eq_of_append_bar hs hs' hfront
  exact ⟨hpq, htu, hstamp, (List.cons.inj hbody).2⟩

theorem bar_not_mem_of_write {t : Instant} {stamp : Text} (h : Stamp.write t = .ok stamp) : bar ∉ stamp := by
  obtain ⟨-, u, -, rfl⟩ := Stamp.write_eq_ok_iff.mp h
  exact Stamp.bar_not_mem_ofUtcWall u.wall

/-- The text that a hash covers determines the hash in front, the event type, the instant to the
millisecond and the canonical text of the details. -/
theorem hashInput_injective {p q t u : Text} {c c' v w : Instant} {d d' : Value} {body body' : Text}
    (hp : bar ∉ p) (hq : bar ∉ q) (hc : c.isAware = true) (hc' : c'.isAware = true)
    (hv : c.toUtc = .ok v) (hw : c'.toUtc = .ok w)
    (hd : Canonical.encode d = .ok body) (hd' : Canonical.encode d' = .ok body')
    (h : hashInput (.text p) (.text t) c d = hashInput (.text q) (.text u) c' d') :
    p = q ∧ t = u ∧ v.truncate = w.truncate ∧ body = body' := by
  rw [hashInput_of_ok p t hd (Stamp.write_of_toUtc hc hv), hashInput_of_ok q u hd' (Stamp.write_of_toUtc hc' hw),
    Except.ok.injEq] at h
  obtain ⟨hpq, htu, hst, hb⟩ := parts_injective hp hq (Stamp.bar_not_mem_ofUtcWall v.wall)
    (Stamp.bar_not_mem_ofUtcWall w.wall) (Canonical.balanced_of_encode hd)
    (Canonical.balanced_of_encode hd') h
  exact ⟨hpq, htu, Instant.truncate_eq_of_milli hv hw (Stamp.ofUtcWall_injective v.inRange w.inRange hst), hb⟩

/-- A list at one instant and a tuple on a clock an hour ahead, some microseconds later, are covered
by one text. -/
theorem hashInput_injective_of_offset :
    let c : Instant := ⟨63900000000000123, some 0, by decide⟩
    let c' : Instant := ⟨63900003600000456, some 3600000000, by decide⟩
    let d := Value.list [.text (lit "a|b"), .null]
    let d' := Value.tuple [.text (lit "a|b"), .null]
    hashInput (.text genesisHash) (.text (lit "x|y")) c d = hashInput (.text genesisHash) (.text (lit "x|y")) c' d' ∧
      ∃ v w, c.toUtc = .ok v ∧ c'.toUtc = .ok w ∧ v ≠ w ∧ v.truncate = w.truncate := by
  intro c c' d d'
  have hv : c.toUtc = .ok ⟨63900000000000123, some 0, by decide⟩ := Instant.ofWall_eq_ok_iff.mpr ⟨rfl, rfl⟩
  have hw : c'.toUtc = .ok ⟨63900000000000456, some 0, by decide⟩ := Instant.ofWall_eq_ok_iff.mpr ⟨by decide, rfl⟩
  have hs : Stamp.ofUtcWall 63900000000000123 = Stamp.ofUtcWall 63900000000000456 := by decide +kernel
  have hd : Canonical.encode d = .ok (lit "[\"a|b\",null]") := rfl
  have hd' : Canonical.encode d' = .ok (lit "[\"a|b\",null]") := rfl
  have hx := hashInput_of_ok genesisHash (lit "x|y") hd (Stamp.write_of_toUtc rfl hv)
  have hy := hashInput_of_ok genesisHash (lit "x|y") hd' (Stamp.write_of_toUtc rfl hw)
  rw [← hs] at hy
  have h := hx.trans hy.symm
  have hb : bar ∉ genesisHash := by decide
  have hi := hashInput_injective hb hb rfl rfl hv hw hd hd' h
  exact ⟨h, _, _, hv, hw, by decide, hi.2.2.1⟩

end Link

end AuditTrail
