import AuditTrail.Proofs.Chain.Verdict

/-!
# Verifying window by window

Stored entries may be damaged in any way. As long as a walk over them comes to a verdict, a range is found intact
exactly when two windows that cover it are, and then the windows count its entries (`Handle.windows_compose`). The
second window begins where the walk over the first one ends: what is before it is what is before the whole range,
and what is in the first window.
-/

namespace AuditTrail

private theorem Instant.exists_toUtc_between {s t u v w : Instant} (hst : s.moment ≤ t.moment)
    (htu : t.moment ≤ u.moment) (hs : s.toUtc = .ok v) (hu : u.toUtc = .ok w) : ∃ x, t.toUtc = .ok x := by
  have hv := (ofWall_eq_ok_iff.mp hs).1
  have hw := (ofWall_eq_ok_iff.mp hu).1
  have hlimit := w.inRange
  have hx : t.moment.toNat < wallLimit := by omega
  exact ⟨⟨t.moment.toNat, some 0, hx⟩, ofWall_eq_ok_iff.mpr ⟨by dsimp only; omega, rfl⟩⟩

/-- An entry over which a walk comes to a verdict: its instant has a stamp, and its own hash can be computed unless its
details have no canonical text. Its hashes may be any values. -/
structure Entry.IsWalkable (e : Entry) : Prop where
  aware : e.createdAt.isAware = true
  utc : ∃ u, e.createdAt.toUtc = .ok u
  recomputed : (∃ hash, e.recomputed = .ok hash) ∨ ∃ why, e.recomputed = .error (.encoding why)

namespace Chain

/-- A walk finds nothing wrong with entries behind an expected hash, which may be any value. -/
def Passes : Value → List Entry → Prop
  | _, [] => True
  | expected, e :: rest => follows expected e = true ∧ e.IsSealed ∧ Passes e.currentHash rest

private theorem passes_append (expected : Value) (es fs : List Entry) :
    Passes expected (es ++ fs) ↔ Passes expected es ∧ Passes (tip expected es) fs := by
  induction es generalizing expected with
  | nil => simp [Passes, tip]
  | cons e rest ih => simp only [List.cons_append, Passes, tip, ih, and_assoc]

private theorem exists_broken {e : Entry} (h : e.IsWalkable) (position : Nat) (wanted found : Value) :
    ∃ r, broken position e wanted found = .ok r ∧ r.isIntact = false := by
  obtain ⟨u, hu⟩ := h.utc
  rw [broken, Stamp.write_of_toUtc h.aware hu]
  exact ⟨_, rfl, rfl⟩

theorem walk_verdict {es : List Entry} (h : ∀ e ∈ es, e.IsWalkable) (expected : Value) (position : Nat) :
    ∃ r, walk (position + 1) expected es = .ok r ∧ (r.isIntact = true ↔ Passes expected es) ∧
      (r.isIntact = true → r = .intact (position + es.length)) := by
  induction es generalizing expected position with
  | nil => exact ⟨_, rfl, ⟨fun _ => trivial, fun _ => rfl⟩, fun _ => rfl⟩
  | cons e rest ih =>
    have he := h e List.mem_cons_self
    have hstop : ∀ {wanted found : Value}, ¬Passes expected (e :: rest) →
        ∃ r, broken (position + 1) e wanted found = .ok r ∧ (r.isIntact = true ↔ Passes expected (e :: rest)) ∧
          (r.isIntact = true → r = .intact (position + (e :: rest).length)) := by
      intro wanted found hn
      obtain ⟨r, hb, hi⟩ := exists_broken he (position + 1) wanted found
      exact ⟨r, hb, ⟨fun hr => absurd hr (by simp [hi]), fun hp => absurd hp hn⟩, fun hr => absurd hr (by simp [hi])⟩
    rw [walk]
    cases hf : follows expected e with
    | false => exact hstop fun hp => absurd (hp.1.symm.trans hf) (by decide)
    | true =>
      simp only [Bool.not_true, Bool.false_eq_true, if_false]
      rcases he.recomputed with ⟨hash, hr⟩ | ⟨why, hr⟩
      · simp only [hr]
        by_cases hs : (Value.text hash).same e.currentHash = true
        · have hsealed : e.IsSealed := ⟨hash, hr, Value.text_same_iff.mp hs⟩
          obtain ⟨r, hw, hi, hc⟩ := ih (fun f hm => h f (List.mem_cons_of_mem e hm)) e.currentHash (position + 1)
          rw [if_pos hs]
          refine ⟨r, hw, hi.trans ⟨fun hp => ⟨hf, hsealed, hp⟩, fun hp => hp.2.2⟩, fun hr => ?_⟩
          rw [hc hr, List.length_cons, Nat.add_right_comm, Nat.add_assoc]
        · rw [if_neg hs]
          refine hstop fun hp => ?_
          obtain ⟨-, ⟨other, ho, hc⟩, -⟩ := hp
          rw [← Except.ok.inj (hr.symm.trans ho), ← Value.text_same_iff] at hc
          exact hs hc
      · simp only [hr]
        refine hstop fun hp => ?_
        obtain ⟨-, ⟨other, ho, -⟩, -⟩ := hp
        exact absurd (hr.symm.trans ho) (by simp)

end Chain

namespace Verifier

variable {W : Type} {store : Store W} {w : W} {es : List Entry}

private theorem verify_verdict (h : store.Lists w es) (hc : ∀ e ∈ es, e.IsWalkable) {start finish u v : Instant}
    (hs : start.isAware = true) (hf : finish.isAware = true) (hu : start.toUtc = .ok u) (hv : finish.toUtc = .ok v)
    (hle : start.moment ≤ finish.moment) {limit : Option Int}
    (hfit : ∀ most ∈ limit, finish.moment - start.moment ≤ most) (watch : Watch) :
    ∃ r, (verify store limit start finish w watch).1 = .ok r ∧
      (r.isIntact = true ↔ Chain.Passes (Chain.tip (.text genesisHash) (Ordered.earlier start es))
        (Ordered.inRange start finish es)) ∧
      (r.isIntact = true → r = .intact (Ordered.inRange start finish es).length) := by
  have hin : ∀ e ∈ Ordered.inRange start finish es, e.IsWalkable := fun e he => hc e (Ordered.mem_inRange.mp he).1
  rw [verify, checkRange_of_fits hs hf hle hfit]
  simp only [examine_of_lists h (fun e he => (hc e he).aware) hs hf, ← Chain.tip_genesis]
  cases hr : Ordered.inRange start finish es with
  | nil => exact ⟨.intact 0, rfl, ⟨fun _ => trivial, fun _ => rfl⟩, fun _ => rfl⟩
  | cons e rest =>
    obtain ⟨r, hw, hi, hcount⟩ := Chain.walk_verdict (hr ▸ hin) (Chain.tip (.text genesisHash) (Ordered.earlier start es)) 0
    rw [Nat.zero_add] at hw hcount
    simp only [hw, Except.map]
    exact ⟨r, conclude_fst (Stamp.write_of_toUtc hs hu) (Stamp.write_of_toUtc hf hv) _, hi, hcount⟩

end Verifier

namespace Handle

/-- A range of stored entries, however they are damaged, is found intact exactly when its part up to an instant and
its part from one microsecond later on are both found intact, and then it has the entries of both. -/
theorem windows_compose {h : Handle} {s : Site} {es : List Entry} (hh : h.Holds s es) (hc : ∀ e ∈ es, e.IsWalkable)
    {start middle next finish u v : Instant} (hs : start.isAware = true) (hm : middle.isAware = true)
    (hn : next.isAware = true) (hf : finish.isAware = true) (hu : start.toUtc = .ok u) (hv : finish.toUtc = .ok v)
    (hle : start.moment ≤ middle.moment) (hnext : next.moment = middle.moment + 1)
    (hlt : middle.moment < finish.moment) {limit window : Option Int}
    (hfit : ∀ most ∈ limit, finish.moment - start.moment ≤ most)
    (hwindow : ∀ most ∈ window, middle.moment - start.moment ≤ most ∧ finish.moment - next.moment ≤ most)
    (watch frontWatch backWatch : Watch) :
    ∃ whole front back, (Verifier.verify h.store limit start finish s watch).1 = .ok whole ∧
      (Verifier.verify h.store window start middle s frontWatch).1 = .ok front ∧
      (Verifier.verify h.store window next finish s backWatch).1 = .ok back ∧
      (whole.isIntact = true ↔ front.isIntact = true ∧ back.isIntact = true) ∧
      (whole.isIntact = true → ∃ m n, front = .intact m ∧ back = .intact n ∧ whole = .intact (m + n)) := by
  have hl := lists_of_holds hh
  have hstart : start.moment ≤ next.moment := by omega
  have hback : next.moment ≤ finish.moment := by omega
  obtain ⟨x, hx⟩ := Instant.exists_toUtc_between hle (Int.le_of_lt hlt) hu hv
  obtain ⟨y, hy⟩ := Instant.exists_toUtc_between hstart hback hu hv
  obtain ⟨whole, hwhole, hi, hcount⟩ :=
    Verifier.verify_verdict hl hc hs hf hu hv (Int.le_trans hstart hback) hfit watch
  obtain ⟨front, hfront, hfi, hfcount⟩ :=
    Verifier.verify_verdict hl hc hs hm hu hx hle (fun most hmost => (hwindow most hmost).1) frontWatch
  obtain ⟨back, hbehind, hbi, hbcount⟩ :=
    Verifier.verify_verdict hl hc hn hf hy hv hback (fun most hmost => (hwindow most hmost).2) backWatch
  -- the walk over the whole range is at the second window's expected hash when it has walked the first window
  have hboth : whole.isIntact = true ↔ front.isIntact = true ∧ back.isIntact = true := by
    rw [hi, hfi, hbi, hl.sorted.inRange_windows hnext hstart hlt, Chain.passes_append,
      hl.sorted.earlier_window hnext hstart, Chain.tip_append]
  refine ⟨whole, front, back, hwhole, hfront, hbehind, hboth, fun hw => ?_⟩
  obtain ⟨hif, hib⟩ := hboth.mp hw
  refine ⟨_, _, hfcount hif, hbcount hib, ?_⟩
  rw [hcount hw, hl.sorted.inRange_windows hnext hstart hlt, List.length_append]

/-- Two rows at one instant with no canonical text and with hashes that are no texts, behind a window without rows. -/
theorem windows_compose_of_tie :
    let t : Instant := ⟨63900000000000000, some 0, by decide⟩
    let u : Instant := ⟨63900000000000001, some 0, by decide⟩
    let a : Entry := ⟨.text (lit "1"), .text (lit "login"), .null, .null, .bytes [], .text genesisHash, .int 7, u⟩
    let b : Entry := ⟨.text (lit "2"), .text (lit "login"), .null, .null, .bytes [], .int 7, .null, u⟩
    let s : Site := { (default : Site) with memory := ⟨[a, b], [], 2, default⟩ }
    ∃ whole front back, (Verifier.verify memory.store none t u s default).1 = .ok whole ∧
      (Verifier.verify memory.store (some 0) t t s default).1 = .ok front ∧
      (Verifier.verify memory.store (some 0) u u s default).1 = .ok back ∧
      (whole.isIntact = true ↔ front.isIntact = true ∧ back.isIntact = true) := by
  intro t u a b s
  have hu : u.toUtc = .ok u := Instant.ofWall_eq_ok_iff.mpr ⟨rfl, rfl⟩
  have ht : t.toUtc = .ok t := Instant.ofWall_eq_ok_iff.mpr ⟨rfl, rfl⟩
  have hc : ∀ e ∈ [a, b], e.IsWalkable := by
    simp only [List.mem_cons, List.not_mem_nil, or_false, forall_eq_or_imp, forall_eq]
    exact ⟨⟨rfl, ⟨u, hu⟩, .inr ⟨_, rfl⟩⟩, ⟨rfl, ⟨u, hu⟩, .inr ⟨_, rfl⟩⟩⟩
  have hh : memory.Holds s [a, b] :=
    ⟨rfl, Ordered.sort_of_isSorted (fun e he => (hc e he).aware) (List.pairwise_pair.mpr (Int.le_refl _))⟩
  have hnext : u.moment = t.moment + 1 := rfl
  have hany : ∀ most ∈ (none : Option Int), u.moment - t.moment ≤ most := fun _ hm => absurd hm (by simp)
  have hfit : ∀ most ∈ some (0 : Int), t.moment - t.moment ≤ most ∧ u.moment - u.moment ≤ most := by
    intro most hm
    rw [← Option.some.inj hm]
    omega
  obtain ⟨whole, front, back, hwhole, hfront, hback, hboth, -⟩ := windows_compose hh hc rfl rfl rfl rfl ht hu
    (Int.le_refl _) hnext (by omega) hany hfit default default default
  exact ⟨whole, front, back, hwhole, hfront, hback, hboth⟩

end Handle

end AuditTrail
