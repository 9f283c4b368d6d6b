import AuditTrail.Chain.Verify

/-!
# Linked entries

A list of entries is linked when each entry follows the hash of the one before it and carries the
hash that its own fields give. A walk finds a list intact exactly when it is linked
(`walk_of_linked`, `linked_of_walk`).
-/

namespace AuditTrail

namespace Entry

def hashInput (e : Entry) : Except Fault Text :=
  Link.hashInput e.previousHash e.eventType e.createdAt e.details

/-- An entry carries the hash that its own fields give. -/
def IsSealed (e : Entry) : Prop := ∃ hash, e.recomputed = .ok hash ∧ e.currentHash = .text hash

theorem IsSealed.exists_hashInput {e : Entry} (h : e.IsSealed) :
    ∃ input, e.hashInput = .ok input ∧ input.isWellFormed = true ∧
      e.currentHash = .text (Sha256.hexDigest (Utf8.encode input)) := by
  obtain ⟨hash, hr, hc⟩ := h
  cases hi : e.hashInput with
  | error f =>
    rw [hashInput] at hi
    simp [recomputed, Link.hash, hi, bind, Except.bind] at hr
  | ok input =>
    rw [hashInput] at hi
    simp only [recomputed, Link.hash, hi, bind, Except.bind, Link.hashText, Utf8.encode?] at hr
    by_cases hw : input.isWellFormed = true
    · simp only [hw, if_true, Except.ok.injEq] at hr
      exact ⟨input, rfl, hw, by rw [hc, hr]⟩
    · simp [hw] at hr

theorem IsSealed.exists_body {e : Entry} (h : e.IsSealed) : ∃ body, Canonical.encode e.details = .ok body := by
  obtain ⟨input, hi, -, -⟩ := h.exists_hashInput
  cases hd : Canonical.encode e.details with
  | ok body => exact ⟨body, rfl⟩
  | error f =>
    rw [hashInput, Link.hashInput, hd] at hi
    exact absurd hi (by simp [bind, Except.bind])

theorem exists_body_of_recomputed {e : Entry} {hash : Text} (h : e.recomputed = .ok hash) :
    ∃ body, Canonical.encode e.details = .ok body :=
  IsSealed.exists_body (e := { e with currentHash := .text hash }) ⟨hash, h, rfl⟩

end Entry

namespace Chain

/-- Each entry follows the hash of the one before it, the first one a given hash, and is sealed. -/
def Linked : Value → List Entry → Prop
  | _, [] => True
  | expected, e :: rest => e.previousHash = expected ∧ e.IsSealed ∧ Linked e.currentHash rest

/-- The hash that an entry after a list must follow. -/
def tip : Value → List Entry → Value
  | expected, [] => expected
  | _, e :: rest => tip e.currentHash rest

theorem tip_append (expected : Value) (es fs : List Entry) :
    tip expected (es ++ fs) = tip (tip expected es) fs := by
  induction es generalizing expected with
  | nil => rfl
  | cons e rest ih => exact ih e.currentHash

theorem tip_concat (expected : Value) (es : List Entry) (e : Entry) :
    tip expected (es ++ [e]) = e.currentHash := by
  rw [tip_append]
  rfl

theorem tip_genesis (es : List Entry) : tip (.text genesisHash) es = expectedAfter es.getLast? := by
  rcases List.eq_nil_or_concat es with rfl | ⟨front, e, rfl⟩
  · rfl
  · rw [List.concat_eq_append, tip_concat, List.getLast?_concat, expectedAfter]

theorem linked_append (expected : Value) (es fs : List Entry) :
    Linked expected (es ++ fs) ↔ Linked expected es ∧ Linked (tip expected es) fs := by
  induction es generalizing expected with
  | nil => simp [Linked, tip]
  | cons e rest ih => simp only [List.cons_append, Linked, tip, ih, and_assoc]

theorem linked_concat (expected : Value) (es : List Entry) (e : Entry) :
    Linked expected (es ++ [e]) ↔
      Linked expected es ∧ e.previousHash = tip expected es ∧ e.IsSealed := by
  simp only [linked_append, Linked, and_true]

theorem isSealed_of_mem {expected : Value} {es : List Entry} (h : Linked expected es) {e : Entry}
    (he : e ∈ es) : e.IsSealed := by
  induction es generalizing expected with
  | nil => exact absurd he List.not_mem_nil
  | cons f rest ih =>
    rcases List.mem_cons.mp he with rfl | hm
    · exact h.2.1
    · exact ih h.2.2 hm

theorem walk_of_linked {t : Text} {es : List Entry} (h : Linked (.text t) es) (position : Nat)
    (hp : 1 ≤ position) : walk position (.text t) es = .ok (.intact (position - 1 + es.length)) := by
  induction es generalizing t position with
  | nil => rfl
  | cons e rest ih =>
    obtain ⟨hl, ⟨hash, hr, hc⟩, ht⟩ := h
    have hf : follows (.text t) e = true := by rw [follows, hl, Value.same_text_iff]
    have hs : (Value.text hash).same e.currentHash = true := Value.text_same_iff.mpr hc
    rw [hc] at ht
    rw [walk, hf, hr]
    simp only [hs, Bool.not_true, Bool.false_eq_true, if_false, if_true]
    rw [hc, ih ht (position + 1) (by omega), List.length_cons]
    congr 2
    omega

private theorem isIntact_of_broken {position : Nat} {e : Entry} {expected actual : Value} {r : Report}
    (h : broken position e expected actual = .ok r) : r.isIntact = false := by
  rw [broken] at h
  cases hs : Stamp.write e.createdAt with
  | error f => simp [hs, Except.map] at h
  | ok stamp =>
    simp only [hs, Except.map, Except.ok.injEq] at h
    rw [← h]
    rfl

theorem walk_append (position : Nat) (expected : Value) (es fs : List Entry) :
    walk position expected (es ++ fs) =
      (walk position expected es).bind fun r =>
        if r.isIntact then walk (position + es.length) (tip expected es) fs else .ok r := by
  have hstay : ∀ {p : Nat} {e : Entry} {wanted found : Value} {go : Except Fault Report},
      broken p e wanted found = (broken p e wanted found).bind fun r => if r.isIntact then go else .ok r := by
    intro p e wanted found go
    cases hb : broken p e wanted found with
    | error f => rfl
    | ok r => simp [Except.bind, isIntact_of_broken hb]
  induction es generalizing position expected with
  | nil => rfl
  | cons e rest ih =>
    rw [List.cons_append, walk, walk]
    cases hf : follows expected e with
    | false => exact hstay
    | true =>
      simp only [Bool.not_true, Bool.false_eq_true, if_false]
      cases hr : e.recomputed with
      | error f =>
        cases f with
        | encoding why => exact hstay
        | _ => rfl
      | ok hash =>
        by_cases hs : (Value.text hash).same e.currentHash = true
        · simp only [hs, if_true, ih]
          rw [List.length_cons, Nat.add_right_comm, Nat.add_assoc, tip]
        · simp only [hs, Bool.false_eq_true, if_false]
          exact hstay

theorem linked_of_walk {t : Text} {es : List Entry} {position : Nat} {r : Report}
    (h : walk position (.text t) es = .ok r) (hi : r.isIntact = true) : Linked (.text t) es := by
  induction es generalizing t position with
  | nil => trivial
  | cons e rest ih =>
    rw [walk] at h
    by_cases hf : follows (.text t) e = true
    · simp only [hf, Bool.not_true, Bool.false_eq_true, if_false] at h
      cases hr : e.recomputed with
      | error f =>
        rw [hr] at h
        cases f with
        | encoding why => simp [isIntact_of_broken h] at hi
        | _ => simp at h
      | ok hash =>
        simp only [hr] at h
        by_cases hs : (Value.text hash).same e.currentHash = true
        · have hc := Value.text_same_iff.mp hs
          rw [if_pos hs, hc] at h
          exact ⟨Value.same_text_iff.mp hf, ⟨hash, hr, hc⟩, hc ▸ ih h⟩
        · rw [if_neg hs] at h
          simp [isIntact_of_broken h] at hi
    · simp only [hf, Bool.not_false, if_true] at h
      simp [isIntact_of_broken h] at hi

end Chain

end AuditTrail
