import AuditTrail.Proofs.Chain.Windows
import AuditTrail.Proofs.Storage.Misfits

/-!
# The bounds of a verification

A range is refused when a bound of it is not aware, when its bounds are in the wrong order, and when it is too wide. Every
other range gets a report, in which only its own entries and the one before them count. At the ends of the calendar this
has an exception. An aware bound may have no reading in UTC there, and the verification overruns the calendar where it has
to write such a bound down: to refuse bounds in the wrong order, and to log that a range with entries is intact
(`Verifier.verify_refuses_iff`).
-/

namespace AuditTrail

namespace Fault

def number? (f : Fault) : Option Nat := (f.class?.bind fun c => c.code none).map FaultCode.number

def IsRefusal (f : Fault) : Prop := f.class? = some .range ∧ f.number? = some 4012

private theorem isRefusal_range (why : RangeFault) : (range why).IsRefusal := ⟨rfl, rfl⟩

private theorem not_isRefusal_outOfRange : ¬outOfRange.IsRefusal := fun h => absurd h.1 (by decide)

end Fault

private theorem Stamp.write_of_not_hasUtc {t : Instant} (ha : t.isAware = true) (h : ¬t.HasUtc) :
    write t = .error .outOfRange := by
  rw [write, if_pos ha]
  cases hu : t.toUtc with
  | ok u => exact absurd ⟨ha, u, hu⟩ h
  | error f =>
    rw [Instant.toUtc_eq_error hu]
    rfl

private theorem Stamp.exists_write {t : Instant} (h : t.HasUtc) : ∃ stamp, write t = .ok stamp := by
  obtain ⟨ha, u, hu⟩ := h
  exact ⟨_, write_of_toUtc ha hu⟩

private theorem Entry.isWalkable_of_recomputed {e : Entry} {hash : Text} (h : e.recomputed = .ok hash) :
    e.IsWalkable := by
  have hsealed : ({ e with currentHash := .text hash } : Entry).IsSealed := ⟨hash, h, rfl⟩
  obtain ⟨stamp, hs⟩ := hsealed.exists_stamp
  obtain ⟨ha, u, hu, -⟩ := Stamp.write_eq_ok_iff.mp hs
  exact ⟨ha, ⟨u, hu⟩, .inl ⟨hash, h⟩⟩

namespace Verifier

/-- A bound is not aware, the bounds are in the wrong order, or the range is wider than is allowed. -/
def IsRefused (limit : Option Int) (start finish : Instant) : Prop :=
  start.isAware = false ∨ finish.isAware = false ∨ finish.moment < start.moment ∨
    ∃ most ∈ limit, most < finish.moment - start.moment

/-- An aware bound without a reading in UTC has to be written down, because the bounds are in the wrong order or because
the range has entries and its report is that they are intact. -/
def Overruns (limit : Option Int) (start finish : Instant) (range : List Entry) (r : Report) : Prop :=
  start.isAware = true ∧ finish.isAware = true ∧ ¬(start.HasUtc ∧ finish.HasUtc) ∧
    (finish.moment < start.moment ∨ ¬IsRefused limit start finish ∧ range ≠ [] ∧ r.isIntact = true)

variable {limit : Option Int} {start finish : Instant}

private theorem fits_of_not_isRefused (h : ¬IsRefused limit start finish) :
    start.isAware = true ∧ finish.isAware = true ∧ start.moment ≤ finish.moment ∧
      ∀ most ∈ limit, finish.moment - start.moment ≤ most := by
  simp only [IsRefused, not_or, Bool.not_eq_false, not_exists, not_and, Int.not_lt] at h
  exact h

private theorem checkRange_of_reversed (limit : Option Int) (hs : start.isAware = true) (hf : finish.isAware = true)
    (hlt : finish.moment < start.moment) :
    (∃ a b, checkRange limit start finish = .error (.range (.reversed a b)) ∧ start.HasUtc ∧ finish.HasUtc) ∨
      (checkRange limit start finish = .error .outOfRange ∧ ¬(start.HasUtc ∧ finish.HasUtc)) := by
  have hcheck : checkRange limit start finish = (do
      let a ← Stamp.write start
      let b ← Stamp.write finish
      .error (.range (.reversed a b))) := by
    simp [checkRange, hs, hf, hlt]
  rw [hcheck]
  by_cases hu : start.HasUtc
  · obtain ⟨a, ha⟩ := Stamp.exists_write hu
    rw [ha]
    by_cases hv : finish.HasUtc
    · obtain ⟨b, hb⟩ := Stamp.exists_write hv
      rw [hb]
      exact .inl ⟨a, b, rfl, hu, hv⟩
    · rw [Stamp.write_of_not_hasUtc hf hv]
      exact .inr ⟨rfl, fun h => hv h.2⟩
  · rw [Stamp.write_of_not_hasUtc hs hu]
    exact .inr ⟨rfl, fun h => hu h.1⟩

/-- What is refused is refused with a range fault, unless the calendar is overrun in saying so. -/
private theorem checkRange_of_isRefused (h : IsRefused limit start finish) (range : List Entry) (r : Report) :
    (¬Overruns limit start finish range r ∧ ∃ why, checkRange limit start finish = .error (.range why)) ∨
      (Overruns limit start finish range r ∧ checkRange limit start finish = .error .outOfRange) := by
  by_cases hn : start.isAware = true ∧ finish.isAware = true
  · obtain ⟨hs, hf⟩ := hn
    by_cases hlt : finish.moment < start.moment
    · rcases checkRange_of_reversed limit hs hf hlt with ⟨a, b, hc, hu, hv⟩ | ⟨hc, hn⟩
      · exact .inl ⟨fun ho => ho.2.2.1 ⟨hu, hv⟩, _, hc⟩
      · exact .inr ⟨⟨hs, hf, hn, .inl hlt⟩, hc⟩
    · obtain ⟨most, hm, hwide⟩ : ∃ most ∈ limit, most < finish.moment - start.moment := by
        simpa [IsRefused, hs, hf, hlt] using h
      obtain rfl : limit = some most := hm
      refine .inl ⟨fun ho => ho.2.2.2.elim hlt fun hgood => hgood.1 h, .tooWide (finish.moment - start.moment) most, ?_⟩
      simp [checkRange, hs, hf, hlt, hwide]
  · refine .inl ⟨fun ho => hn ⟨ho.1, ho.2.1⟩, .unaware, ?_⟩
    have hany : (!start.isAware || !finish.isAware) = true := by
      rw [Bool.or_eq_true, Bool.not_eq_true', Bool.not_eq_true']
      by_cases hs : start.isAware = true
      · exact .inr (Bool.not_eq_true _ ▸ fun hf => hn ⟨hs, hf⟩)
      · exact .inl (Bool.not_eq_true _ ▸ hs)
    unfold checkRange
    rw [if_pos hany]

variable {W : Type} {store : Store W} {w : W} {es : List Entry}

/-- A range that is not refused gets the report of the walk over its entries, unless the calendar is overrun in logging
that they are intact. -/
private theorem verify_of_not_isRefused (hl : store.Lists w es) (ha : ∀ e ∈ es, e.createdAt.isAware = true) {r : Report}
    (hw : Chain.walk 1 (Chain.expectedAfter (Ordered.earlier start es).getLast?) (Ordered.inRange start finish es) =
      .ok r) (h : ¬IsRefused limit start finish) (watch : Watch) :
    (¬Overruns limit start finish (Ordered.inRange start finish es) r ∧
        (verify store limit start finish w watch).1 = .ok r) ∨
      (Overruns limit start finish (Ordered.inRange start finish es) r ∧
        (verify store limit start finish w watch).1 = .error .outOfRange) := by
  obtain ⟨hs, hf, hle, hfit⟩ := fits_of_not_isRefused h
  have hlt : ¬finish.moment < start.moment := Int.not_lt.mpr hle
  rw [verify, checkRange_of_fits hs hf hle hfit]
  simp only [examine_of_lists hl ha hs hf]
  cases hr : Ordered.inRange start finish es with
  | nil =>
    rw [hr] at hw
    refine .inl ⟨fun ho => ho.2.2.2.elim hlt fun hgood => hgood.2.1 rfl, ?_⟩
    exact hw
  | cons e rest =>
    rw [hr] at hw
    simp only [hw, Except.map, conclude]
    cases hi : r.isIntact with
    | false => exact .inl ⟨fun ho => ho.2.2.2.elim hlt fun hgood => absurd (hgood.2.2.symm.trans hi) (by decide), rfl⟩
    | true =>
      by_cases hu : start.HasUtc ∧ finish.HasUtc
      · obtain ⟨a, ha⟩ := Stamp.exists_write hu.1
        obtain ⟨b, hb⟩ := Stamp.exists_write hu.2
        refine .inl ⟨fun ho => ho.2.2.1 hu, ?_⟩
        simp only [ha, hb, if_true]
      · refine .inr ⟨⟨hs, hf, hu, .inr ⟨h, by simp, hi⟩⟩, ?_⟩
        by_cases hus : start.HasUtc
        · obtain ⟨a, ha⟩ := Stamp.exists_write hus
          simp only [ha, Stamp.write_of_not_hasUtc hf fun hv => hu ⟨hus, hv⟩, if_true]
        · simp only [Stamp.write_of_not_hasUtc hs hus, if_true]

/-- Over rows that can all be hashed, a verification refuses exactly the ranges with a bound that is not aware, with
bounds in the wrong order, or that are too wide, and reports on all others what the walk over their entries finds behind
the entry before them; except where the calendar is overrun, and exactly there it fails with a fault that is neither. -/
theorem verify_refuses_iff {m : Memory} (hf : m.failures = []) (hh : ∀ e ∈ m.entries, ∃ hash, e.recomputed = .ok hash)
    (limit : Option Int) (start finish : Instant) (watch : Watch) :
    let out := (verify Memory.store limit start finish m watch).1
    ∃ es r, Ordered.sort m.entries = .ok es ∧
      Chain.walk 1 (Chain.expectedAfter (Ordered.earlier start es).getLast?) (Ordered.inRange start finish es) = .ok r ∧
      ((∃ f, out = .error f ∧ f.IsRefusal) ↔
        IsRefused limit start finish ∧ ¬Overruns limit start finish (Ordered.inRange start finish es) r) ∧
      (out = .ok r ↔
        ¬IsRefused limit start finish ∧ ¬Overruns limit start finish (Ordered.inRange start finish es) r) ∧
      (out = .error .outOfRange ↔ Overruns limit start finish (Ordered.inRange start finish es) r) := by
  intro out
  have hwalkable : ∀ e ∈ m.entries, e.IsWalkable := by
    intro e he
    obtain ⟨hash, hr⟩ := hh e he
    exact Entry.isWalkable_of_recomputed hr
  have hsort := Ordered.sort_of_aware fun e he => (hwalkable e he).aware
  obtain ⟨hperm, -⟩ := Ordered.sort_eq_ok hsort
  generalize m.entries.mergeSort Ordered.le = es at hsort hperm
  have hsorted : ∀ e ∈ es, e.IsWalkable := fun e he => hwalkable e (hperm.mem_iff.mp he)
  have hranged : ∀ e ∈ Ordered.inRange start finish es, e.IsWalkable := fun e he =>
    hsorted e (Ordered.mem_inRange.mp he).1
  obtain ⟨r, hw, -, -⟩ := Chain.walk_verdict hranged (Chain.expectedAfter (Ordered.earlier start es).getLast?) 0
  rw [Nat.zero_add] at hw
  refine ⟨es, r, hsort, hw, ?_⟩
  have hcheck : ∀ f, checkRange limit start finish = .error f → out = .error f := by
    intro f hf
    simp only [out, verify, hf]
  by_cases hrefused : IsRefused limit start finish
  · rcases checkRange_of_isRefused hrefused (Ordered.inRange start finish es) r with ⟨hno, why, hc⟩ | ⟨ho, hc⟩
    · rw [hcheck _ hc]
      simp [hrefused, hno, Fault.isRefusal_range, Fault.outOfRange]
    · rw [hcheck _ hc]
      simp [ho, Fault.not_isRefusal_outOfRange]
  · rcases verify_of_not_isRefused (Memory.lists hf hsort) (fun e he => (hsorted e he).aware) hw hrefused watch with
      ⟨hno, hout⟩ | ⟨ho, hout⟩
    · rw [show out = _ from hout]
      simp [hrefused, hno]
    · rw [show out = _ from hout]
      simp [ho, Fault.not_isRefusal_outOfRange]

/-- One row that is linked and sealed, in a range that begins with the year 1 of a wall fourteen hours ahead of UTC. The
bounds are in order, yet the verification fails, because the earlier one cannot be written down. -/
theorem verify_refuses_iff_of_first_day :
    let t : Instant := ⟨63900000000000123, some 0, by decide⟩
    let early : Instant := ⟨0, some (14 * Duration.perHour), by decide⟩
    let input := genesisHash ++ lit "|" ++ lit "login" ++ lit "|" ++ Stamp.ofUtcWall t.wall ++ lit "|" ++ lit "[null]"
    let e : Entry := ⟨.text (lit "1"), .text (lit "login"), .null, .null, .list [.null], .text genesisHash,
      .text (Sha256.hexDigest (Utf8.encode input)), t⟩
    let m : Memory := ⟨[e], [], 1, default⟩
    (verify Memory.store none early t m default).1 = .error .outOfRange ∧ ¬IsRefused none early t := by
  intro t early input e m
  have hw : input.isWellFormed = true := by decide +kernel
  have hu : t.toUtc = .ok t := Instant.ofWall_eq_ok_iff.mpr ⟨rfl, rfl⟩
  have hi : Link.hashInput e.previousHash e.eventType e.createdAt e.details = .ok input :=
    Link.hashInput_of_ok genesisHash (lit "login") (rfl : Canonical.encode e.details = .ok (lit "[null]"))
      (Stamp.write_of_toUtc rfl hu)
  have hr : e.recomputed = .ok (Sha256.hexDigest (Utf8.encode input)) := by
    rw [Entry.recomputed, Link.hash, hi]
    simp only [bind, Except.bind, Link.hashText, Utf8.encode?, hw, if_true]
  have hle : early.moment ≤ t.moment := by decide
  have hgood : ¬IsRefused none early t := by
    rintro (h | h | h | ⟨most, hm, -⟩)
    · exact absurd h (by decide)
    · exact absurd h (by decide)
    · omega
    · exact absurd hm (by simp)
  have hoff : ¬early.HasUtc := by
    rintro ⟨-, u, hu⟩
    have hwall : (u.wall : Int) = early.moment := (Instant.ofWall_eq_ok_iff.mp hu).1
    have hneg : early.moment < 0 := by decide
    omega
  obtain ⟨es, r, hs, hwalk, -, -, hiff⟩ := verify_refuses_iff (m := m) rfl
    (fun f hf => List.mem_singleton.mp hf ▸ ⟨_, hr⟩) none early t default
  have hsorted : Ordered.sort [e] = .ok [e] :=
    Ordered.sort_of_isSorted (fun f hf => List.mem_singleton.mp hf ▸ rfl) (List.pairwise_singleton _ e)
  obtain rfl : [e] = es := Except.ok.inj (hsorted.symm.trans hs)
  have hrange : Ordered.inRange early t [e] = [e] := by
    have hin : e ∈ Ordered.inRange early t [e] := Ordered.mem_inRange.mpr ⟨List.mem_cons_self, hle, Int.le_refl _⟩
    exact List.filter_eq_self.mpr fun f hf => List.mem_singleton.mp hf ▸ (List.mem_filter.mp hin).2
  have hbefore : Ordered.earlier early [e] = [] := by
    rw [Ordered.earlier, List.filter_eq_nil_iff]
    intro f hf
    rw [List.mem_singleton.mp hf, decide_eq_true_eq]
    exact Int.not_lt.mpr hle
  have hlinked : Chain.Linked (.text genesisHash) [e] := ⟨rfl, ⟨_, hr, rfl⟩, trivial⟩
  have hintact : r.isIntact = true := by
    rw [hrange, hbefore, List.getLast?_nil, Chain.expectedAfter, Chain.walk_of_linked hlinked 1 (Nat.le_refl 1)] at hwalk
    rw [← Except.ok.inj hwalk]
    rfl
  refine ⟨hiff.mpr ⟨rfl, rfl, fun h => hoff h.1, .inr ⟨hgood, ?_, hintact⟩⟩, hgood⟩
  rw [hrange]
  exact List.cons_ne_nil e []

end Verifier

end AuditTrail
