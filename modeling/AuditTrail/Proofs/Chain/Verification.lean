import AuditTrail.Proofs.Chain.Linked
import AuditTrail.Proofs.Storage.Listing
import AuditTrail.Proofs.Time.Stamps

/-!
# Verifying listed entries

What a verification says of a store that lists its entries. It walks the entries of the range from
the hash of the latest entry before the range (`examine_of_lists`). It finds every range of linked
entries intact (`verify_of_linked`), and entries that it finds intact in a range around all of them
are linked (`linked_of_verify`).
-/

namespace AuditTrail

theorem Entry.IsSealed.exists_stamp {e : Entry} (h : e.IsSealed) :
    ∃ stamp, Stamp.write e.createdAt = .ok stamp := by
  obtain ⟨input, hi, -, -⟩ := h.exists_hashInput
  cases hs : Stamp.write e.createdAt with
  | ok stamp => exact ⟨stamp, rfl⟩
  | error f =>
    rw [hashInput, Link.hashInput, hs] at hi
    cases hd : Canonical.encode e.details <;> cases hp : Link.shown e.previousHash <;>
      cases ht : Link.shown e.eventType <;> simp [hd, hp, ht, bind, Except.bind] at hi

theorem Entry.IsSealed.isAware {e : Entry} (h : e.IsSealed) : e.createdAt.isAware = true := by
  obtain ⟨stamp, hs⟩ := h.exists_stamp
  exact (Stamp.write_eq_ok_iff.mp hs).1

namespace Chain

theorem exists_tip_eq_text {t : Text} {es : List Entry} (h : Linked (.text t) es) :
    ∃ s, tip (.text t) es = .text s := by
  induction es generalizing t with
  | nil => exact ⟨t, rfl⟩
  | cons e rest ih =>
    obtain ⟨-, ⟨hash, -, hc⟩, ht⟩ := h
    rw [tip, hc]
    exact ih (hc ▸ ht)

/-- A range of a linked list follows the tip of what is before the range. -/
theorem linked_inRange {expected : Value} {es : List Entry} (h : Linked expected es)
    (hs : Ordered.IsSorted es) (start finish : Instant) :
    Linked expected (Ordered.earlier start es) ∧
      Linked (tip expected (Ordered.earlier start es)) (Ordered.inRange start finish es) := by
  obtain ⟨later, he⟩ := hs.split start finish
  rw [he, linked_append, linked_append] at h
  exact ⟨h.1, h.2.1⟩

end Chain

/-- A store finds the entries of a range, and the latest entry before any of them, and stays as it is. -/
structure Store.Covers {W : Type} (store : Store W) (w : W) (es : List Entry) (start finish : Instant) : Prop where
  sorted : Ordered.IsSorted es
  findBetween : store.findBetween start finish w = (.ok (Ordered.inRange start finish es), w)
  findJustBefore : ∀ e ∈ es, store.findJustBefore e.createdAt w = (.ok (Ordered.earlier e.createdAt es).getLast?, w)

private theorem Store.Lists.covers {W : Type} {store : Store W} {w : W} {es : List Entry} {start finish : Instant}
    (h : store.Lists w es) (ha : ∀ e ∈ es, e.createdAt.isAware = true) (hs : start.isAware = true)
    (hf : finish.isAware = true) : store.Covers w es start finish where
  sorted := h.sorted
  findBetween := by rw [h.findBetween, Ordered.between_of_aware hs hf ha]
  findJustBefore e he := by rw [h.findJustBefore, Ordered.justBefore_of_aware (ha e he) ha]

namespace Verifier

variable {W : Type} {store : Store W} {w : W} {es : List Entry} {start finish : Instant}

private theorem examine_of_covers (h : store.Covers w es start finish) :
    examine store start finish w =
      (match Ordered.inRange start finish es with
        | [] => .ok none
        | e :: rest =>
          (Chain.walk 1 (Chain.expectedAfter (Ordered.earlier start es).getLast?) (e :: rest)).map some,
        w) := by
  rw [examine, h.findBetween]
  cases hr : Ordered.inRange start finish es with
  | nil => rfl
  | cons e rest =>
    have he := Ordered.mem_inRange.mp (hr ▸ List.mem_cons_self : e ∈ Ordered.inRange start finish es)
    simp only [h.findJustBefore e he.1, Ordered.earlier_of_inRange h.sorted hr]

theorem examine_of_lists (h : store.Lists w es) (ha : ∀ e ∈ es, e.createdAt.isAware = true)
    (hs : start.isAware = true) (hf : finish.isAware = true) :
    examine store start finish w =
      (match Ordered.inRange start finish es with
        | [] => .ok none
        | e :: rest =>
          (Chain.walk 1 (Chain.expectedAfter (Ordered.earlier start es).getLast?) (e :: rest)).map some,
        w) :=
  examine_of_covers (h.covers ha hs hf)

theorem examine_of_empty {w' : W} (hr : store.findBetween start finish w = (.ok [], w')) :
    examine store start finish w = (.ok none, w') := by
  rw [examine, hr]

theorem examine_of_reads {w' : W} {e : Entry} {rest : List Entry} {before : Option Entry}
    (hr : store.findBetween start finish w = (.ok (e :: rest), w'))
    (hb : (store.findJustBefore e.createdAt w').1 = .ok before) :
    (examine store start finish w).1 = (Chain.walk 1 (Chain.expectedAfter before) (e :: rest)).map some := by
  rw [examine, hr]
  dsimp only
  cases hq : store.findJustBefore e.createdAt w' with
  | mk found world =>
    rw [hq] at hb
    obtain rfl : found = .ok before := hb
    rfl

private theorem isAware_of_checkRange {limit : Option Int} (h : checkRange limit start finish = .ok ()) :
    start.isAware = true ∧ finish.isAware = true := by
  unfold checkRange at h
  by_cases hn : (!start.isAware || !finish.isAware) = true
  · simp [hn] at h
  · simpa using hn

theorem checkRange_of_le (hs : start.isAware = true) (hf : finish.isAware = true)
    (hle : start.moment ≤ finish.moment) : checkRange none start finish = .ok () := by
  have hn : ¬finish.moment < start.moment := by omega
  simp [checkRange, hs, hf, hn]

/-- Every range of linked entries that a store covers is intact, and the entries in it are counted. -/
theorem verify_of_covers (h : store.Covers w es start finish) (hl : Chain.Linked (.text genesisHash) es)
    (hs : start.isAware = true) (hf : finish.isAware = true) (hle : start.moment ≤ finish.moment)
    {u v : Instant} (hu : start.toUtc = .ok u) (hv : finish.toUtc = .ok v) (watch : Watch) :
    (verify store none start finish w watch).1 = .ok (.intact (Ordered.inRange start finish es).length) := by
  obtain ⟨hb, hr⟩ := Chain.linked_inRange hl h.sorted start finish
  obtain ⟨t, ht⟩ := Chain.exists_tip_eq_text hb
  rw [ht] at hr
  rw [verify, checkRange_of_le hs hf hle]
  simp only [examine_of_covers h, ← Chain.tip_genesis, ht]
  cases hc : Ordered.inRange start finish es with
  | nil => rfl
  | cons e rest =>
    rw [hc] at hr
    simp only [Chain.walk_of_linked hr 1 (Nat.le_refl 1), Except.map, Nat.sub_self, Nat.zero_add]
    have hi : (Report.intact (e :: rest).length).isIntact = true := rfl
    rw [conclude, if_pos hi, Stamp.write_eq_ok_iff.mpr ⟨hs, u, hu, rfl⟩,
      Stamp.write_eq_ok_iff.mpr ⟨hf, v, hv, rfl⟩]

theorem verify_of_linked (h : store.Lists w es) (hl : Chain.Linked (.text genesisHash) es)
    (hs : start.isAware = true) (hf : finish.isAware = true) (hle : start.moment ≤ finish.moment)
    {u v : Instant} (hu : start.toUtc = .ok u) (hv : finish.toUtc = .ok v) (watch : Watch) :
    (verify store none start finish w watch).1 = .ok (.intact (Ordered.inRange start finish es).length) :=
  verify_of_covers (h.covers (fun _ he => (Chain.isSealed_of_mem hl he).isAware) hs hf) hl hs hf hle hu hv watch

private theorem conclude_eq_ok {r s : Report} {watch : Watch}
    (h : (conclude start finish r watch).1 = .ok s) : s = r := by
  rw [conclude] at h
  split at h
  · split at h <;> simp_all
  · exact (Except.ok.inj h).symm

/-- Entries that are found intact in a range around all of them are linked from the beginning. -/
theorem linked_of_verify (h : store.Lists w es) (ha : ∀ e ∈ es, e.createdAt.isAware = true)
    (hc : ∀ e ∈ es, start.moment ≤ e.createdAt.moment ∧ e.createdAt.moment ≤ finish.moment)
    {limit : Option Int} {watch : Watch} {r : Report}
    (hv : (verify store limit start finish w watch).1 = .ok r) (hi : r.isIntact = true) :
    Chain.Linked (.text genesisHash) es := by
  cases es with
  | nil => trivial
  | cons e rest =>
    have hin : Ordered.inRange start finish (e :: rest) = e :: rest := by
      rw [Ordered.inRange, List.filter_eq_self]
      intro f hf
      simp [hc f hf]
    have hout : Ordered.earlier start (e :: rest) = [] := by
      rw [Ordered.earlier, List.filter_eq_nil_iff]
      intro f hf
      have := (hc f hf).1
      simp only [decide_eq_true_eq]
      omega
    rw [verify] at hv
    cases hk : checkRange limit start finish with
    | error f => simp [hk] at hv
    | ok _ =>
      obtain ⟨hs, hf⟩ := isAware_of_checkRange hk
      simp only [hk, examine_of_lists h ha hs hf, hin, hout, List.getLast?_nil, Chain.expectedAfter] at hv
      cases hw : Chain.walk 1 (.text genesisHash) (e :: rest) with
      | error f => simp [hw, Except.map] at hv
      | ok s =>
        simp only [hw, Except.map] at hv
        exact Chain.linked_of_walk hw (conclude_eq_ok hv ▸ hi)

end Verifier

end AuditTrail
