import AuditTrail.Proofs.Chain.Verdict

/-!
# Where a chain breaks first

Behind linked entries an entry with a mismatch is the one that a verification names, whatever comes after it and
wherever the range begins: the hash that the range is expected to follow leads, through the entries of the range that
are still linked, to the hash that the entry should have followed (`Verifier.verify_of_break`).
-/

namespace AuditTrail

namespace Chain

/-- An entry with a mismatch ends a walk. Details that are only too long for a text would not be reported. -/
private theorem walk_of_mismatch {t : Text} {e : Entry} {wanted found : Value} (hm : Mismatch (.text t) e wanted found)
    (hd : ∃ body, Canonical.encode e.details = .ok body) (position : Nat) (rest : List Entry) :
    walk position (.text t) (e :: rest) = broken position e wanted found := by
  rw [walk]
  cases hm with
  | link hl =>
    have hf : follows (.text t) e = false := by
      rw [follows, Bool.eq_false_iff]
      exact fun h => hl (Value.same_text_iff.mp h)
    simp only [hf, Bool.not_false, if_true]
  | details _ hf =>
    obtain ⟨body, hb⟩ := hd
    exact absurd (hb.symm.trans hf) (by simp)
  | content hl hr hc =>
    rename_i hash
    have hf : follows (.text t) e = true := by rw [follows, hl, Value.same_text_iff]
    have hs : ¬(Value.text hash).same e.currentHash = true := fun h => hc (Value.text_same_iff.mp h)
    simp only [hf, hr, Bool.not_true, Bool.false_eq_true, if_false, if_neg hs]

private theorem walk_of_break {t : Text} {front : List Entry} {e : Entry} {wanted found : Value}
    (hl : Linked (.text t) front) (hm : Mismatch (tip (.text t) front) e wanted found)
    (hd : ∃ body, Canonical.encode e.details = .ok body) (rest : List Entry) :
    walk 1 (.text t) (front ++ e :: rest) = broken (front.length + 1) e wanted found := by
  obtain ⟨s, hs⟩ := exists_tip_eq_text hl
  have hi : (Report.intact (1 - 1 + front.length)).isIntact = true := rfl
  rw [hs] at hm
  rw [walk_append, walk_of_linked hl 1 (Nat.le_refl 1), Except.bind]
  simp only [hi, if_true]
  rw [hs, walk_of_mismatch hm hd, Nat.add_comm]

end Chain

namespace Verifier

variable {W : Type} {store : Store W} {w : W} {front rest : List Entry} {e : Entry}

/-- A verification of a range names the first entry of the whole chain that has a mismatch, if the range has it. It
counts the entries of the range up to that entry. -/
theorem verify_of_break (h : store.Lists w (front ++ e :: rest))
    (ha : ∀ f ∈ front ++ e :: rest, f.createdAt.isAware = true) (hl : Chain.Linked (.text genesisHash) front)
    {wanted found : Value} (hm : Chain.Mismatch (Chain.tip (.text genesisHash) front) e wanted found)
    (hd : ∃ body, Canonical.encode e.details = .ok body) {stamp : Text} (ht : Stamp.write e.createdAt = .ok stamp)
    {start finish : Instant} (hs : start.isAware = true) (hf : finish.isAware = true)
    (hstart : start.moment ≤ e.createdAt.moment) (hfinish : e.createdAt.moment ≤ finish.moment)
    {limit : Option Int} (hfit : ∀ most ∈ limit, finish.moment - start.moment ≤ most) (watch : Watch) :
    (verify store limit start finish w watch).1 = .ok ⟨.bool false,
      .int ((Ordered.inRange start finish front).length + 1 : Nat), e.id, .text stamp, wanted, found⟩ := by
  obtain ⟨hfront, hback, hcross⟩ := List.pairwise_append.mp h.sorted
  have hbefore : Ordered.earlier start (e :: rest) = [] := by
    rw [Ordered.earlier, List.filter_eq_nil_iff]
    intro f hf
    have hle : e.createdAt.moment ≤ f.createdAt.moment := by
      rcases List.mem_cons.mp hf with rfl | hm
      · exact Int.le_refl _
      · exact (List.pairwise_cons.mp hback).1 f hm
    simp only [decide_eq_true_eq]
    omega
  have hin : Ordered.inRange start finish (front ++ e :: rest) =
      Ordered.inRange start finish front ++ e :: Ordered.inRange start finish rest := by
    rw [Ordered.inRange, List.filter_append, List.filter_cons]
    simp only [hstart, hfinish, decide_true, Bool.and_self, if_true]
    rfl
  have hout : Ordered.earlier start (front ++ e :: rest) = Ordered.earlier start front := by
    rw [Ordered.earlier, List.filter_append]
    exact (congrArg (Ordered.earlier start front ++ ·) hbefore).trans (List.append_nil _)
  -- the linked entries in front lead from the hash that the range follows to the one that the entry should follow
  have hsplit := Ordered.IsSorted.eq_earlier_append_inRange hfront start finish fun f hm => by
    have := hcross f hm e List.mem_cons_self
    omega
  rw [hsplit, Chain.linked_append] at hl
  obtain ⟨t, htip⟩ := Chain.exists_tip_eq_text hl.1
  rw [hsplit, Chain.tip_append, htip] at hm
  have hwalk := Chain.walk_of_break (htip ▸ hl.2) hm hd (Ordered.inRange start finish rest)
  have hex : examine store start finish w = ((Chain.walk 1 (.text t)
      (Ordered.inRange start finish front ++ e :: Ordered.inRange start finish rest)).map some, w) := by
    rw [examine_of_lists h ha hs hf, hin, hout, ← Chain.tip_genesis, htip]
    cases Ordered.inRange start finish front <;> rfl
  rw [verify, checkRange_of_fits hs hf (Int.le_trans hstart hfinish) hfit, hex, hwalk, Chain.broken, ht]
  rfl

end Verifier

end AuditTrail
