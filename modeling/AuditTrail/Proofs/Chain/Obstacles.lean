import AuditTrail.Proofs.Canonical.Oversized
import AuditTrail.Proofs.Canonical.Shape
import AuditTrail.Proofs.Chain.HashInput
import AuditTrail.Proofs.Chain.Verdict
import AuditTrail.Proofs.Time.StampReading

/-!
# Damage that stops a verification

Not all damage is reported. Details outside the JSON values are, but an integer with too many digits, an instant without
a stamp and a lone surrogate in an event type or in a hash keep the hash of an entry from being computed in a way that
ends the verification (`Entry.obstacle_iff`). A verification fails exactly when the first entry that breaks the chain has
such an obstacle, and then nobody is notified (`Verifier.verify_fails_iff`).
-/

namespace AuditTrail

private theorem Stamp.write_ne_encoding (t : Instant) (why : Unencodable) : Stamp.write t ≠ .error (.encoding why) := by
  rw [write, Instant.toUtc, Instant.ofWall]
  split
  · split <;> simp [Except.map, Fault.outOfRange]
  · simp [unaware]

namespace Entry

/-- An entry whose hashes and event type are texts. -/
structure IsLegible (e : Entry) : Prop where
  previousHash : e.previousHash.isText = true
  currentHash : e.currentHash.isText = true
  eventType : e.eventType.isText = true

/-- What keeps the hash of an entry from being computed, though its details are not outside the JSON values. -/
inductive Obstacle (e : Entry) : Fault → Prop
  | digits (hd : Canonical.encode e.details = .error .oversized) : Obstacle e .oversized
  | stamp {body : Text} {f : Fault} (hd : Canonical.encode e.details = .ok body)
    (hs : Stamp.write e.createdAt = .error f) : Obstacle e f
  | surrogate {body stamp p t : Text} (hd : Canonical.encode e.details = .ok body)
    (hs : Stamp.write e.createdAt = .ok stamp) (hp : e.previousHash = .text p) (ht : e.eventType = .text t)
    (hw : p.isWellFormed = false ∨ t.isWellFormed = false) : Obstacle e (.platform .unencodableText)

variable {e : Entry}

private theorem recomputed_of_body {p t body stamp : Text} (hp : e.previousHash = .text p) (ht : e.eventType = .text t)
    (hd : Canonical.encode e.details = .ok body) (hs : Stamp.write e.createdAt = .ok stamp) :
    e.recomputed = if p.isWellFormed = true ∧ t.isWellFormed = true then
      .ok (Sha256.hexDigest (Utf8.encode (p ++ lit "|" ++ t ++ lit "|" ++ stamp ++ lit "|" ++ body)))
    else .error (.platform .unencodableText) := by
  obtain ⟨-, u, -, rfl⟩ := Stamp.write_eq_ok_iff.mp hs
  have hw : (p ++ lit "|" ++ t ++ lit "|" ++ Stamp.ofUtcWall u.wall ++ lit "|" ++ body).isWellFormed =
      (p.isWellFormed && t.isWellFormed) := by
    simp only [Text.isWellFormed_append, Text.isWellFormed_lit, StampReader.isWellFormed_ofUtcWall,
      Canonical.isWellFormed_of_encode hd, Bool.and_true]
  rw [recomputed, Link.hash, hp, ht, Link.hashInput_of_ok p t hd hs]
  simp only [bind, Except.bind, Link.hashText, Utf8.encode?, hw, Bool.and_eq_true]
  by_cases h : p.isWellFormed = true ∧ t.isWellFormed = true
  · simp only [if_pos h]
  · simp only [if_neg h]

private theorem recomputed_of_details {f : Fault} (hd : Canonical.encode e.details = .error f) :
    e.recomputed = .error f := by
  rw [recomputed, Link.hash, Link.hashInput, hd]
  rfl

private theorem recomputed_of_unstamped {p t body : Text} {f : Fault} (hp : e.previousHash = .text p)
    (ht : e.eventType = .text t) (hd : Canonical.encode e.details = .ok body)
    (hs : Stamp.write e.createdAt = .error f) : e.recomputed = .error f := by
  have hshown : ∀ s : Text, Link.shown (.text s) = .ok s := fun _ => rfl
  rw [recomputed, Link.hash, Link.hashInput, hd, hp, ht, hs, hshown, hshown]
  rfl

/-- The obstacles of a legible entry are the faults of its hash other than those of details outside the JSON values. -/
theorem obstacle_iff (h : e.IsLegible) {f : Fault} :
    e.Obstacle f ↔ e.recomputed = .error f ∧ ∀ why, f ≠ .encoding why := by
  obtain ⟨p, hp⟩ := Value.exists_of_isText h.previousHash
  obtain ⟨t, ht⟩ := Value.exists_of_isText h.eventType
  cases hd : Canonical.encode e.details with
  | error g =>
    rw [recomputed_of_details hd, Except.error.injEq]
    constructor
    · intro ho
      cases ho with
      | digits hd' =>
        obtain rfl := Except.error.inj (hd.symm.trans hd')
        exact ⟨rfl, by simp [Fault.oversized]⟩
      | stamp hd' => exact absurd (hd.symm.trans hd') (by simp)
      | surrogate hd' => exact absurd (hd.symm.trans hd') (by simp)
    · rintro ⟨rfl, hn⟩
      rcases Canonical.encode_eq_error e.details g hd with ⟨why, rfl⟩ | ⟨rfl, -⟩
      · exact absurd rfl (hn why)
      · exact .digits hd
  | ok body =>
    cases hs : Stamp.write e.createdAt with
    | error g =>
      rw [recomputed_of_unstamped hp ht hd hs, Except.error.injEq]
      constructor
      · intro ho
        cases ho with
        | digits hd' => exact absurd (hd.symm.trans hd') (by simp)
        | stamp _ hs' =>
          obtain rfl := Except.error.inj (hs.symm.trans hs')
          exact ⟨rfl, fun why he => Stamp.write_ne_encoding e.createdAt why (he ▸ hs)⟩
        | surrogate _ hs' => exact absurd (hs.symm.trans hs') (by simp)
      · rintro ⟨rfl, -⟩
        exact .stamp hd hs
    | ok stamp =>
      rw [recomputed_of_body hp ht hd hs]
      constructor
      · intro ho
        cases ho with
        | digits hd' => exact absurd (hd.symm.trans hd') (by simp)
        | stamp _ hs' => exact absurd (hs.symm.trans hs') (by simp)
        | surrogate _ _ hp' ht' hw =>
          obtain rfl := Value.text.inj (hp.symm.trans hp')
          obtain rfl := Value.text.inj (ht.symm.trans ht')
          rw [if_neg (by simpa using fun hpw => by simpa [hpw] using hw)]
          exact ⟨rfl, by simp⟩
      · rintro ⟨hr, -⟩
        split at hr
        · exact absurd hr (by simp)
        · rename_i hw
          obtain rfl := Except.error.inj hr
          refine .surrogate hd hs hp ht ?_
          rw [not_and_or, Bool.not_eq_true, Bool.not_eq_true] at hw
          exact hw

end Entry

namespace Chain

/-- Why a verification fails at an entry that should follow a hash: the hash of the entry cannot be computed, or the
entry is to be reported but its instant has no stamp. -/
inductive Stuck (expected : Value) (e : Entry) : Fault → Prop
  | obstacle {f : Fault} (hl : e.previousHash = expected) (ho : e.Obstacle f) : Stuck expected e f
  | unstamped {f : Fault} (hm : e.previousHash ≠ expected ∨ ∃ why, Canonical.encode e.details = .error (.encoding why))
    (hs : Stamp.write e.createdAt = .error f) : Stuck expected e f

/-- A verification fails at the first entry of a list that breaks the chain. -/
def FailsAt (expected : Value) (es : List Entry) (f : Fault) : Prop :=
  ∃ front e rest, es = front ++ e :: rest ∧ Linked expected front ∧ Stuck (tip expected front) e f

private theorem FailsAt.cons {expected : Value} {e : Entry} {es : List Entry} {f : Fault}
    (hp : e.previousHash = expected)
    (hs : e.IsSealed) (h : FailsAt e.currentHash es f) : FailsAt expected (e :: es) f := by
  obtain ⟨front, b, rest, rfl, hl, hb⟩ := h
  exact ⟨e :: front, b, rest, rfl, ⟨hp, hs, hl⟩, hb⟩

private theorem broken_of_stamp {e : Entry} {stamp : Text} (hs : Stamp.write e.createdAt = .ok stamp) (position : Nat)
    (wanted found : Value) :
    broken position e wanted found = .ok ⟨.bool false, .int position, e.id, .text stamp, wanted, found⟩ := by
  rw [broken, hs]
  rfl

private theorem broken_of_fault {e : Entry} {f : Fault} (hs : Stamp.write e.createdAt = .error f) (position : Nat)
    (wanted found : Value) : broken position e wanted found = .error f := by
  rw [broken, hs]
  rfl

variable {t : Text} {e : Entry} {es : List Entry} {f : Fault} {wanted found : Value}

private theorem follows_of_eq (hp : e.previousHash = .text t) : follows (.text t) e = true := by
  rw [follows, hp, Value.same_text_iff]

private theorem walk_of_isSealed (hp : e.previousHash = .text t) (hs : e.IsSealed) (position : Nat)
    (rest : List Entry) :
    walk position (.text t) (e :: rest) = walk (position + 1) e.currentHash rest := by
  obtain ⟨hash, hr, hc⟩ := hs
  have hsame : (Value.text hash).same e.currentHash = true := Value.text_same_iff.mpr hc
  rw [walk, hr]
  simp only [follows_of_eq hp, hsame, Bool.not_true, Bool.false_eq_true, if_false, if_true]

/-- A mismatch ends a walk, unless the link fits and the details hold an integer with too many digits. -/
private theorem walk_of_named (hm : Mismatch (.text t) e wanted found)
    (hd : e.previousHash = .text t → Canonical.encode e.details ≠ .error .oversized) (position : Nat)
    (rest : List Entry) : walk position (.text t) (e :: rest) = broken position e wanted found := by
  rw [walk]
  cases hm with
  | link hl =>
    have hf : follows (.text t) e = false := by
      rw [follows, Bool.eq_false_iff]
      exact fun h => hl (Value.same_text_iff.mp h)
    simp only [hf, Bool.not_false, if_true]
  | details hl hf =>
    have hr := Entry.recomputed_of_details hf
    obtain ⟨why, rfl⟩ := (Canonical.encode_eq_error e.details _ hf).resolve_right fun he => hd hl (he.1 ▸ hf)
    simp only [follows_of_eq hl, hr, Bool.not_true, Bool.false_eq_true, if_false]
  | content hl hr hc =>
    rename_i hash
    have hs : ¬(Value.text hash).same e.currentHash = true := fun h => hc (Value.text_same_iff.mp h)
    simp only [follows_of_eq hl, hr, Bool.not_true, Bool.false_eq_true, if_false, if_neg hs]

private theorem walk_of_obstacle (hl : e.IsLegible) (hp : e.previousHash = .text t) (ho : e.Obstacle f) (position : Nat)
    (rest : List Entry) : walk position (.text t) (e :: rest) = .error f := by
  obtain ⟨hr, hn⟩ := (Entry.obstacle_iff hl).mp ho
  rw [walk, hr, follows_of_eq hp]
  cases f with
  | encoding why => exact absurd rfl (hn why)
  | _ => rfl

private theorem head_cases (hl : e.IsLegible) (t : Text) :
    (e.previousHash = .text t ∧ e.IsSealed) ∨
      (∃ wanted found, Mismatch (.text t) e wanted found ∧
        (e.previousHash = .text t → Canonical.encode e.details ≠ .error .oversized)) ∨
      (e.previousHash = .text t ∧ ∃ f, e.Obstacle f) := by
  by_cases hp : e.previousHash = .text t
  · cases hr : e.recomputed with
    | error f =>
      by_cases hn : ∀ why, f ≠ .encoding why
      · exact .inr (.inr ⟨hp, f, (Entry.obstacle_iff hl).mpr ⟨hr, hn⟩⟩)
      · obtain ⟨why, hwhy⟩ := Classical.not_forall.mp hn
        obtain rfl := not_not.mp hwhy
        have hd := Entry.encode_of_recomputed hr
        exact .inr (.inl ⟨_, _, .details hp hd, fun _ he => absurd (hd.symm.trans he) (by simp [Fault.oversized])⟩)
    | ok hash =>
      by_cases hm : e.currentHash = .text hash
      · exact .inl ⟨hp, hash, hr, hm⟩
      · obtain ⟨body, hd⟩ := Entry.exists_body_of_recomputed hr
        exact .inr (.inl ⟨_, _, .content hp hr hm, fun _ he => absurd (hd.symm.trans he) (by simp)⟩)
  · exact .inr (.inl ⟨_, _, .link hp, fun he => absurd he hp⟩)

private theorem Mismatch.stuck (hm : Mismatch (.text t) e wanted found)
    (hd : e.previousHash = .text t → Canonical.encode e.details ≠ .error .oversized)
    (hs : Stamp.write e.createdAt = .error f) : Stuck (.text t) e f := by
  cases hm with
  | link hl => exact .unstamped (.inl hl) hs
  | details hl hf =>
    obtain ⟨why, rfl⟩ := (Canonical.encode_eq_error e.details _ hf).resolve_right fun he => hd hl (he.1 ▸ hf)
    exact .unstamped (.inr ⟨why, hf⟩) hs
  | content hl hr hc =>
    rename_i hash
    obtain ⟨stamp, ht⟩ := Entry.IsSealed.exists_stamp (e := { e with currentHash := .text hash }) ⟨hash, hr, rfl⟩
    exact absurd (hs.symm.trans ht) (by simp)

private theorem walk_of_stuck (hl : e.IsLegible) (h : Stuck (.text t) e f) (position : Nat) (rest : List Entry) :
    walk position (.text t) (e :: rest) = .error f := by
  cases h with
  | obstacle hp ho => exact walk_of_obstacle hl hp ho position rest
  | unstamped hm hs =>
    by_cases hp : e.previousHash = .text t
    · obtain ⟨why, hd⟩ := hm.resolve_left (not_not_intro hp)
      have hn : Canonical.encode e.details ≠ .error .oversized := fun he =>
        absurd (hd.symm.trans he) (by simp [Fault.oversized])
      rw [walk_of_named (.details hp hd) fun _ => hn]
      exact broken_of_fault hs _ _ _
    · rw [walk_of_named (.link hp) fun he => absurd he hp]
      exact broken_of_fault hs _ _ _

private theorem walk_of_failsAt (hl : ∀ e ∈ es, e.IsLegible) (h : FailsAt (.text t) es f) :
    walk 1 (.text t) es = .error f := by
  obtain ⟨front, e, rest, rfl, hfront, he⟩ := h
  obtain ⟨s, hs⟩ := exists_tip_eq_text hfront
  have hi : (Report.intact (1 - 1 + front.length)).isIntact = true := rfl
  rw [hs] at he
  rw [walk_append, walk_of_linked hfront 1 (Nat.le_refl 1), Except.bind]
  simp only [hi, if_true]
  rw [hs]
  exact walk_of_stuck (hl e (List.mem_append_right front List.mem_cons_self)) he _ _

/-- A walk over legible entries finds them linked, names the first one that breaks the chain, or fails there. -/
private theorem walk_cases (hl : ∀ e ∈ es, e.IsLegible) (t : Text) (position : Nat) :
    (Linked (.text t) es ∧ walk (position + 1) (.text t) es = .ok (.intact (position + es.length))) ∨
      (∃ r, NamesBreak (position + 1) (.text t) es r ∧ walk (position + 1) (.text t) es = .ok r) ∨
      ∃ f, FailsAt (.text t) es f ∧ walk (position + 1) (.text t) es = .error f := by
  induction es generalizing t position with
  | nil => exact .inl ⟨trivial, rfl⟩
  | cons e rest ih =>
    have he := hl e List.mem_cons_self
    have hstuck : ∀ {f : Fault}, Stuck (.text t) e f →
        ∃ f, FailsAt (.text t) (e :: rest) f ∧ walk (position + 1) (.text t) (e :: rest) = .error f := fun hs =>
      ⟨_, ⟨[], e, rest, rfl, trivial, hs⟩, walk_of_stuck he hs _ _⟩
    rcases head_cases he t with ⟨hp, hs⟩ | ⟨wanted, found, hm, hd⟩ | ⟨hp, f, ho⟩
    · obtain ⟨hash, -, hc⟩ := id hs
      rw [walk_of_isSealed hp hs, hc]
      rcases ih (fun g hg => hl g (List.mem_cons_of_mem e hg)) hash (position + 1) with
        ⟨hlinked, hi⟩ | ⟨r, hb, hn⟩ | ⟨f, hb, hn⟩
      · refine .inl ⟨⟨hp, hs, hc ▸ hlinked⟩, ?_⟩
        rw [hi, List.length_cons, Nat.add_right_comm, Nat.add_assoc]
      · exact .inr (.inl ⟨r, NamesBreak.cons hp hs (hc ▸ hb), hn⟩)
      · exact .inr (.inr ⟨f, FailsAt.cons hp hs (hc ▸ hb), hn⟩)
    · cases hs : Stamp.write e.createdAt with
      | error g => exact .inr (.inr (hstuck (hm.stuck hd hs)))
      | ok stamp =>
        refine .inr (.inl ⟨_, ⟨[], e, rest, stamp, wanted, found, rfl, trivial, hm, hs, rfl⟩, ?_⟩)
        rw [walk_of_named hm hd]
        exact broken_of_stamp hs _ _ _
    · exact .inr (.inr (hstuck (.obstacle hp ho)))

end Chain

namespace Verifier

variable {W : Type} {store : Store W} {w w' : W} {range : List Entry} {before : Option Entry} {start finish : Instant}

/-- The walk over a range that can be read decides its verification: a fault of the walk is that of the verification
and nobody is notified, and a report of the walk is its result, reported if it is of a break. -/
private theorem verify_of_walk (hr : store.findBetween start finish w = (.ok range, w'))
    (hb : ∀ e ∈ range.head?, (store.findJustBefore e.createdAt w').1 = .ok before) {u v : Instant}
    (hs : start.isAware = true) (hf : finish.isAware = true) (hu : start.toUtc = .ok u) (hv : finish.toUtc = .ok v)
    (hle : start.moment ≤ finish.moment) {limit : Option Int}
    (hfit : ∀ most ∈ limit, finish.moment - start.moment ≤ most) (watch : Watch) :
    let walked := Chain.walk 1 (Chain.expectedAfter before) range
    let out := verify store limit start finish w watch
    (∀ f, walked = .error f → out.1 = .error f ∧ out.2.2.notices = watch.notices) ∧
      ∀ r, walked = .ok r → out.1 = .ok r ∧
        (r.isIntact = false →
          out.2.2 = reportBroken r (watch.count (·.countVerifyDuration watch.metrics.running))) := by
  intro walked out
  have hout : out = verify store limit start finish w watch := rfl
  simp only [verify, checkRange_of_fits hs hf hle hfit] at hout
  cases range with
  | nil =>
    rw [examine_of_empty hr] at hout
    rw [hout]
    refine ⟨fun f h => absurd h (by simp [walked, Chain.walk]), fun r h => ?_⟩
    obtain rfl : Report.intact 0 = r := Except.ok.inj h
    exact ⟨rfl, fun h => absurd h (by decide)⟩
  | cons e rest =>
    have hexamine := examine_of_reads hr (hb e rfl)
    generalize examine store start finish w = examined at hexamine hout
    obtain ⟨found, world⟩ := examined
    obtain rfl : found = walked.map some := hexamine
    refine ⟨fun f h => ?_, fun r h => ?_⟩
    · simp only [h, Except.map] at hout
      rw [hout]
      exact ⟨rfl, rfl⟩
    · cases hi : r.isIntact with
      | true =>
        simp only [h, Except.map, conclude, hi, if_true, Stamp.write_of_toUtc hs hu, Stamp.write_of_toUtc hf hv] at hout
        rw [hout]
        exact ⟨rfl, fun h => absurd h (by decide)⟩
      | false =>
        simp only [h, Except.map, conclude, hi, Bool.false_eq_true, if_false] at hout
        rw [hout]
        exact ⟨rfl, fun _ => rfl⟩

/-- A verification of legible entries that can be read fails exactly at a first break of the chain with an obstacle,
and then tells nobody. Every other verification ends with a report: it finds the range linked, or it names the first
break and notifies. -/
theorem verify_fails_iff (hr : store.findBetween start finish w = (.ok range, w'))
    (hb : ∀ e ∈ range.head?, (store.findJustBefore e.createdAt w').1 = .ok before)
    (hl : ∀ e ∈ before.toList ++ range, e.IsLegible) {u v : Instant} (hs : start.isAware = true)
    (hf : finish.isAware = true) (hu : start.toUtc = .ok u) (hv : finish.toUtc = .ok v)
    (hle : start.moment ≤ finish.moment) {limit : Option Int}
    (hfit : ∀ most ∈ limit, finish.moment - start.moment ≤ most) (watch : Watch) :
    let expected := Chain.expectedAfter before
    let out := verify store limit start finish w watch
    (∀ f, out.1 = .error f ↔ Chain.FailsAt expected range f) ∧
      (∀ f, out.1 = .error f → out.2.2.notices = watch.notices) ∧
      ∀ r, out.1 = .ok r →
        (Chain.Linked expected range ∧ r = .intact range.length) ∨
          (Chain.NamesBreak 1 expected range r ∧
            out.2.2 = reportBroken r (watch.count (·.countVerifyDuration watch.metrics.running))) := by
  intro expected out
  rw [List.forall_mem_append] at hl
  obtain ⟨t, ht⟩ : ∃ t, expected = .text t := by
    cases before with
    | none => exact ⟨genesisHash, rfl⟩
    | some b => exact Value.exists_of_isText (hl.1 b (by simp)).currentHash
  obtain ⟨hfault, hreport⟩ := verify_of_walk hr hb hs hf hu hv hle hfit watch
  rw [show Chain.expectedAfter before = .text t from ht] at hfault hreport
  rw [ht]
  have hstuck : ∀ f, Chain.FailsAt (.text t) range f → Chain.walk 1 (.text t) range = .error f := fun f h =>
    Chain.walk_of_failsAt hl.2 h
  have hcases := Chain.walk_cases hl.2 t 0
  rw [Nat.zero_add, Nat.zero_add] at hcases
  cases hw : Chain.walk 1 (.text t) range with
  | error g =>
    obtain ⟨herror, hquiet⟩ := hfault g hw
    obtain ⟨f, hfail, hg⟩ := (hcases.resolve_left fun h => absurd (hw.symm.trans h.2) (by simp)).resolve_left
      fun ⟨r, h⟩ => absurd (hw.symm.trans h.2) (by simp)
    obtain rfl := Except.error.inj (hw.symm.trans hg)
    refine ⟨fun f => ⟨fun h => ?_, fun h => ?_⟩, fun _ _ => hquiet, fun r h => absurd (herror.symm.trans h) (by simp)⟩
    · exact Except.error.inj (herror.symm.trans h) ▸ hfail
    · exact herror.trans (hw.symm.trans (hstuck f h))
  | ok r =>
    obtain ⟨hok, hbroken⟩ := hreport r hw
    refine ⟨fun f => ⟨fun h => ?_, fun h => ?_⟩, fun f h => ?_, fun s h => ?_⟩
    · exact absurd (hok.symm.trans h) (by simp)
    · exact absurd (hw.symm.trans (hstuck f h)) (by simp)
    · exact absurd (hok.symm.trans h) (by simp)
    · obtain rfl := Except.ok.inj (hok.symm.trans h)
      rcases hcases with ⟨hlinked, hi⟩ | ⟨q, hbreak, hq⟩ | ⟨f, -, he⟩
      · exact .inl ⟨hlinked, Except.ok.inj (hw.symm.trans hi)⟩
      · obtain rfl := Except.ok.inj (hw.symm.trans hq)
        exact .inr ⟨hbreak, hbroken hbreak.isIntact⟩
      · exact absurd (hw.symm.trans he) (by simp)

/-- One row in memory whose event type was edited to a lone surrogate: its link fits and its details have a canonical
text, yet its hash cannot be computed, and the verification fails without a notice. -/
theorem verify_fails_of_lone_surrogate :
    let t : Instant := ⟨63900000000000123, some 0, by decide⟩
    let e : Entry := ⟨.text (lit "1"), .text [⟨0xD800, by decide⟩], .null, .null, .list [.null], .text genesisHash,
      .text (lit "x"), t⟩
    let s : Site := { (default : Site) with memory := ⟨[e], [], 1, default⟩ }
    let watch := Watch.ofEmitter (.ofListeners [.recorder]) false
    (verify Handle.memory.store (some 0) t t s watch).1 = .error (.platform .unencodableText) ∧
      (verify Handle.memory.store (some 0) t t s watch).2.2.notices = [] := by
  intro t e s watch
  have hu : t.toUtc = .ok t := Instant.ofWall_eq_ok_iff.mpr ⟨rfl, rfl⟩
  have hsorted : Ordered.sort [e] = .ok [e] :=
    Ordered.sort_of_isSorted (fun f hf => List.mem_singleton.mp hf ▸ rfl) (List.pairwise_singleton _ e)
  have hlists : Handle.memory.store.Lists s [e] := Handle.lists_of_holds (h := .memory) ⟨rfl, hsorted⟩
  have hr : Handle.memory.store.findBetween t t s = (.ok [e], s) := hlists.findBetween t t
  have hb : ∀ f ∈ [e].head?, (Handle.memory.store.findJustBefore f.createdAt s).1 = .ok none := by
    intro f hf
    obtain rfl : e = f := Option.some.inj hf
    rw [hlists.findJustBefore, Ordered.justBefore_of_aware rfl fun f hf => List.mem_singleton.mp hf ▸ rfl]
    simp [Ordered.earlier]
  have hl : ∀ f ∈ (none : Option Entry).toList ++ [e], f.IsLegible := by
    intro f hf
    rw [List.mem_singleton.mp hf]
    exact ⟨rfl, rfl, rfl⟩
  have hfit : ∀ most ∈ some (0 : Int), t.moment - t.moment ≤ most := by
    intro most hm
    rw [← Option.some.inj hm]
    omega
  obtain ⟨hiff, hquiet, -⟩ := verify_fails_iff hr hb hl rfl rfl hu hu (Int.le_refl _) hfit watch
  have hfail := (hiff (.platform .unencodableText)).mpr ⟨[], e, [], rfl, trivial, .obstacle rfl
    (.surrogate (rfl : Canonical.encode e.details = .ok (lit "[null]")) (Stamp.write_of_toUtc rfl hu) rfl rfl (.inr rfl))⟩
  exact ⟨hfail, hquiet _ hfail⟩

end Verifier

end AuditTrail
