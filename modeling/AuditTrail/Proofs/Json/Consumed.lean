import AuditTrail.Proofs.Canonical.Scanning
import AuditTrail.Value.Json

/-!
# What the JSON reader takes

Whatever text the JSON reader accepts, canonical or not, the part that it takes leads from outside to
outside (`balanced_of_read`). When it refuses a text, the text is malformed or holds an integer with too
many digits.
-/

namespace AuditTrail.Json

open Spot

/-- A text leads from outside to outside up to what is left of it. -/
def Leaves (t rest : Text) : Prop := ∃ used, t = used ++ rest ∧ Balanced used

namespace Leaves

variable {s t u : Text}

private theorem refl (t : Text) : Leaves t t := ⟨[], rfl, Balanced.nil⟩

private theorem trans (h : Leaves s t) (h' : Leaves t u) : Leaves s u := by
  obtain ⟨x, rfl, hx⟩ := h
  obtain ⟨y, rfl, hy⟩ := h'
  exact ⟨x ++ y, (List.append_assoc x y u).symm, hx.append hy⟩

private theorem cons {c : CodePoint} (hc : Canonical.isQuiet c = true) (h : Leaves t u) : Leaves (c :: t) u := by
  have hb : Balanced [c] := Canonical.balanced_of_isQuiet fun d hd => by rwa [List.mem_singleton.mp hd]
  exact trans ⟨[c], rfl, hb⟩ h

end Leaves

variable {t rest : Text}

private theorem leaves_skip (t : Text) : Leaves t (skip t) := by
  refine ⟨t.takeWhile isSpace, List.takeWhile_append_dropWhile.symm, ?_⟩
  apply Canonical.balanced_of_isQuiet
  intro c hc
  have hs := List.all_eq_true.mp List.all_takeWhile c hc
  simp only [isSpace, Bool.or_eq_true, beq_iff_eq] at hs
  rcases hs with ((h | h) | h) | h <;> simp [Canonical.isQuiet, h]

private theorem isQuiet_of_digit? {c : CodePoint} {d : Nat} (h : c.digit? = some d) : Canonical.isQuiet c = true := by
  rw [CodePoint.digit?] at h
  split at h
  · apply Canonical.isQuiet_of_isNumeral
    simp only [Canonical.isNumeral, Bool.or_eq_true, Bool.and_eq_true, decide_eq_true_eq]
    omega
  · exact absurd h (by simp)

private theorem leaves_spanDigits (t : Text) : Leaves t (Decimal.spanDigits t).2 := by
  induction t with
  | nil => exact Leaves.refl []
  | cons c t ih =>
    rw [Decimal.spanDigits]
    cases hd : c.digit? with
    | none => exact Leaves.refl (c :: t)
    | some d => exact Leaves.cons (isQuiet_of_digit? hd) ih

private theorem leaves_readWhole {whole : List Nat} (h : readWhole t = some (whole, rest)) : Leaves t rest := by
  have hs := leaves_spanDigits t
  rw [readWhole] at h
  split at h
  · exact absurd h (by simp)
  · rename_i he
    obtain ⟨-, rfl⟩ := Prod.mk.inj (Option.some.inj h)
    cases t with
    | nil => exact Leaves.refl []
    | cons c t =>
      rw [Decimal.spanDigits] at he
      cases hd : c.digit? with
      | none => simp [hd] at he
      | some d => exact Leaves.cons (isQuiet_of_digit? hd) (Leaves.refl t)
  · rename_i he
    obtain ⟨-, rfl⟩ := Prod.mk.inj (Option.some.inj h)
    rwa [he] at hs

private theorem leaves_readFraction (t : Text) : Leaves t (readFraction t).2 := by
  unfold readFraction
  split
  · rename_i c u
    split
    · rename_i hc
      have hs := leaves_spanDigits u
      split
      · exact Leaves.refl _
      · rename_i he
        rw [he] at hs
        exact Leaves.cons (by simp [Canonical.isQuiet, hc]) hs
    · exact Leaves.refl _
  · exact Leaves.refl _

private theorem leaves_readExponent (t : Text) : Leaves t (readExponent t).2 := by
  unfold readExponent
  split
  · rename_i c u
    split
    · rename_i hc
      have hmark : Canonical.isQuiet c = true := by rcases hc with h | h <;> simp [Canonical.isQuiet, h]
      dsimp only
      split
      · exact Leaves.refl _
      · rename_i ds v _ he
        apply Leaves.cons hmark
        -- The digits stand behind a sign, or there is none.
        split at he
        · rename_i s w
          have hs := leaves_spanDigits w
          have hn := leaves_spanDigits (s :: w)
          split at he
          · rw [he] at hs
            exact Leaves.cons (by simp [Canonical.isQuiet, *]) hs
          · split at he
            · rw [he] at hs
              exact Leaves.cons (by simp [Canonical.isQuiet, *]) hs
            · rw [he] at hn
              exact hn
        · rw [Decimal.spanDigits, Prod.mk.injEq] at he
          rw [← he.2]
          exact Leaves.refl []
    · exact Leaves.refl _
  · exact Leaves.refl _

/-- How a reader ends: behind a part that leads from outside to outside, or with one of two faults. -/
def Ends (t : Text) : Except Fault (Value × Text) → Prop
  | .ok (_, rest) => Leaves t rest
  | .error f => f = malformed ∨ f = .oversized

private theorem ends_readNumber (negative : Bool) (t : Text) : Ends t (readNumber negative t) := by
  rw [readNumber]
  split
  · exact .inl rfl
  · rename_i whole u hw
    have hu := leaves_readWhole hw
    have hf := leaves_readFraction u
    have he := leaves_readExponent (readFraction u).2
    dsimp only
    split
    · split
      · exact (hu.trans hf).trans he
      · exact .inr rfl
    · exact (hu.trans hf).trans he

private theorem balanced_words : ∀ w ∈ words, Balanced w.1 := by
  intro w hw
  simp only [words, List.mem_cons, List.not_mem_nil, or_false] at hw
  rcases hw with rfl | rfl | rfl | rfl | rfl | rfl <;> rfl

private theorem ends_readScalar (t : Text) : Ends t (readScalar t) := by
  unfold readScalar
  split
  · rename_i found hf
    obtain ⟨w, hw, hd⟩ := List.exists_of_findSome?_eq_some hf
    obtain ⟨rest, hr, rfl⟩ := Option.map_eq_some_iff.mp hd
    rw [Text.dropFront?_eq_some_iff] at hr
    exact ⟨w.1, hr, balanced_words w hw⟩
  · split
    · rename_i c u _
      split
      · rename_i hc
        have hn := ends_readNumber true u
        cases hr : readNumber true u with
        | error f =>
          rw [hr] at hn
          exact hn
        | ok r =>
          rw [hr] at hn
          exact Leaves.cons (by simp [Canonical.isQuiet, hc]) hn
      · exact ends_readNumber false (c :: u)
    · exact .inl rfl

/-- A text leads from the inside to the outside up to what is left of it. -/
def Closes (t rest : Text) : Prop :=
  ∃ used, t = used ++ rest ∧ ∀ d, Spot.scan ⟨.inside, d⟩ used = some ⟨.outside, d⟩

private theorem Closes.through {front u : Text} (hf : ∀ d, Spot.scan ⟨.inside, d⟩ front = some ⟨.inside, d⟩)
    (h : Closes u rest) : Closes (front ++ u) rest := by
  obtain ⟨used, rfl, hs⟩ := h
  refine ⟨front ++ used, (List.append_assoc front used rest).symm, fun d => ?_⟩
  rw [scan_append_of_eq (hf d), hs d]

private theorem scan_pair {c e : CodePoint} (hc : c.val = 0x5C) (he : e.val ≠ 0x7C) (d : Nat) :
    Spot.scan ⟨.inside, d⟩ [c, e] = some ⟨.inside, d⟩ := by
  simp [Spot.scan, Spot.next, hc, he]

private theorem ne_quote_of_hexDigit? {c : CodePoint} {n : Nat} (h : c.hexDigit? = some n) :
    c.val ≠ 0x22 ∧ c.val ≠ 0x5C := by
  rw [CodePoint.hexDigit?] at h
  constructor
  · intro hv
    simp [hv] at h
  · intro hv
    simp [hv] at h

private theorem ne_quote_of_hexUnit? {p q r s : CodePoint} {n : Nat} (h : hexUnit? p q r s = some n) :
    ∀ c ∈ [p, q, r, s], c.val ≠ 0x22 ∧ c.val ≠ 0x5C := by
  simp only [hexUnit?, bind, Option.bind_eq_some_iff] at h
  obtain ⟨_, hp, _, hq, _, hr, _, hs, -⟩ := h
  simp only [List.mem_cons, List.not_mem_nil, or_false]
  rintro c (rfl | rfl | rfl | rfl)
  · exact ne_quote_of_hexDigit? hp
  · exact ne_quote_of_hexDigit? hq
  · exact ne_quote_of_hexDigit? hr
  · exact ne_quote_of_hexDigit? hs

private theorem closes_of_readChars {u : Text} {paired : Bool} {done s : Text}
    (h : readChars u paired done = some (s, rest)) : Closes u rest := by
  fun_induction readChars u paired done with
  | case1 => simp at h
  | case2 c u paired done hc =>
    obtain ⟨-, rfl⟩ := Prod.mk.inj (Option.some.inj h)
    exact ⟨[c], rfl, fun d => by simp [Spot.scan, Spot.next, hc]⟩
  | case3 => simp at h
  | case4 c paired done _ hb e he p q r s u n hn _ ih =>
    have hpair := scan_pair (e := e) hb (by omega)
    have hunit := Canonical.scan_inside_of_plain (ne_quote_of_hexUnit? hn)
    exact ((ih h).through hunit).through hpair
  | case5 => simp at h
  | case6 => simp at h
  | case7 c paired done _ hb e u _ p hp ih =>
    have he : e.val ≠ 0x7C := by
      intro hv
      simp [shortEscape?, hv] at hp
    exact (ih h).through (scan_pair hb he)
  | case8 => simp at h
  | case9 => simp at h
  | case10 c u paired done hq hb _ ih =>
    have hplain := Canonical.scan_inside_of_plain (t := [c]) fun d hd => by
      rw [List.mem_singleton.mp hd]
      exact ⟨hq, hb⟩
    exact (ih h).through hplain

private theorem leaves_of_readChars {c : CodePoint} (hc : c.val = 0x22) {u s : Text}
    (h : readChars u false [] = some (s, rest)) : Leaves (c :: u) rest := by
  obtain ⟨used, rfl, hs⟩ := closes_of_readChars h
  have ho : (Spot.mk .outside 0).next c = some ⟨.inside, 0⟩ := by simp [Spot.next, hc]
  refine ⟨c :: used, rfl, ?_⟩
  rw [Balanced, Spot.scan, ho]
  exact hs 0

private theorem leaves_of_readKey {k : Text} (h : readKey t = some (k, rest)) : Leaves t rest := by
  unfold readKey at h
  split at h
  · simp at h
  · split at h
    · rename_i c u hc
      split at h
      · rename_i s v hr
        split at h
        · rename_i d after hd
          split at h
          · rename_i hv
            obtain ⟨-, rfl⟩ := Prod.mk.inj (Option.some.inj h)
            have hskip := leaves_skip v
            rw [hd] at hskip
            exact ((leaves_of_readChars hc hr).trans hskip).trans
              (Leaves.cons (by simp [Canonical.isQuiet, hv]) (leaves_skip after))
          · simp at h
        · simp at h
      · simp at h
    · simp at h

/-- How the reader of items or fields ends: at a closing bracket of its own, or with one of two faults. -/
def EndsAt (close : Nat) (t : Text) : Except Fault (Value × Text) → Prop
  | .ok (_, rest) => ∃ c : CodePoint, c.val = close ∧ Leaves t (c :: rest)
  | .error f => f = malformed ∨ f = .oversized

private theorem leaves_comma {v : Text} {d : CodePoint} {after : Text} (hv : Leaves t v) (hd : skip v = d :: after)
    (hc : d.val = 0x2C) : Leaves t (skip after) := by
  have hskip := leaves_skip v
  rw [hd] at hskip
  exact (hv.trans hskip).trans (Leaves.cons (by simp [Canonical.isQuiet, hc]) (leaves_skip after))

private theorem leaves_enclosed {a b : CodePoint} (ha : a.val = 0x5B ∨ a.val = 0x7B) (hb : b.val = 0x5D ∨ b.val = 0x7D)
    {u : Text} (h : Leaves u (b :: rest)) : Leaves (a :: u) rest := by
  obtain ⟨used, rfl, hu⟩ := h
  refine ⟨[a] ++ used ++ [b], by simp, Balanced.enclose ?_ hu ?_⟩
  · have hq : ¬a.val = 0x22 := by omega
    have hbar : ¬(a.val = 0x5C ∨ a.val = 0x7C) := by omega
    simp [Spot.scan, Spot.next, hq, hbar, ha]
  · have hq : ¬b.val = 0x22 := by omega
    have hbar : ¬(b.val = 0x5C ∨ b.val = 0x7C) := by omega
    have hopen : ¬(b.val = 0x5B ∨ b.val = 0x7B) := by omega
    simp [Spot.scan, Spot.next, hq, hbar, hopen, hb]

private theorem EndsAt.after {n : Nat} {u : Text} {r : Except Fault (Value × Text)} (hu : Leaves t u)
    (h : EndsAt n u r) :
    EndsAt n t r := by
  cases r with
  | error f => exact h
  | ok r =>
    obtain ⟨c, hc, hl⟩ := h
    exact ⟨c, hc, hu.trans hl⟩

private theorem EndsAt.enclosed {n : Nat} {a : CodePoint} (ha : a.val = 0x5B ∨ a.val = 0x7B) (hn : n = 0x5D ∨ n = 0x7D)
    {r : Except Fault (Value × Text)} (h : EndsAt n t r) : Ends (a :: t) r := by
  cases r with
  | error f => exact h
  | ok r =>
    obtain ⟨c, hc, hl⟩ := h
    exact leaves_enclosed ha (by omega) hl

private theorem endsAt_of_next {n : Nat} {u : Text} {next : Text → Except Fault (Value × Text)} {done : Value}
    (hu : Leaves t u) (hnext : ∀ v, EndsAt n v (next v)) :
    EndsAt n t (match skip u with
      | [] => .error malformed
      | d :: after =>
        if d.val = 0x2C then next (skip after)
        else if d.val = n then .ok (done, after)
        else .error malformed) := by
  have hskip := leaves_skip u
  split
  · exact .inl rfl
  · rename_i d after hd
    split
    · rename_i hc
      exact (hnext (skip after)).after (leaves_comma hu hd hc)
    · split
      · rename_i hc
        rw [hd] at hskip
        exact ⟨d, hc, hu.trans hskip⟩
      · exact .inl rfl

private theorem ends_of_opening {n : Nat} {a : CodePoint} (ha : a.val = 0x5B ∨ a.val = 0x7B) (hn : n = 0x5D ∨ n = 0x7D)
    {u : Text} {inner : Text → Except Fault (Value × Text)} {empty : Value} (h : ∀ v, EndsAt n v (inner v)) :
    Ends (a :: u) (match skip u with
      | [] => .error malformed
      | d :: after => if d.val = n then .ok (empty, after) else inner (d :: after)) := by
  have hskip := leaves_skip u
  split
  · exact .inl rfl
  · rename_i d after hd
    rw [hd] at hskip
    split
    · rename_i hv
      exact leaves_enclosed ha (by omega) hskip
    · exact ((h (d :: after)).after hskip).enclosed ha hn

section Step

variable {fuel : Nat}

private theorem ends_readValue_succ (hItems : ∀ t done, EndsAt 0x5D t (readItems fuel t done))
    (hFields : ∀ t done, EndsAt 0x7D t (readFields fuel t done)) (t : Text) :
    Ends t (readValue (fuel + 1) t) := by
  cases t with
  | nil => exact .inl rfl
  | cons c u =>
    rw [readValue]
    split
    · rename_i hc
      split
      · rename_i hr
        exact leaves_of_readChars hc hr
      · exact .inl rfl
    · split
      · rename_i hc
        exact ends_of_opening (.inl hc) (.inl rfl) fun v => hItems v []
      · split
        · rename_i hc
          exact ends_of_opening (.inr hc) (.inr rfl) fun v => hFields v []
        · exact ends_readScalar (c :: u)

private theorem endsAt_readItems_succ (hValue : ∀ t, Ends t (readValue fuel t))
    (hItems : ∀ t done, EndsAt 0x5D t (readItems fuel t done)) (t : Text) (done : List Value) :
    EndsAt 0x5D t (readItems (fuel + 1) t done) := by
  have hvalue := hValue t
  rw [readItems]
  cases hr : readValue fuel t with
  | error f =>
    rw [hr] at hvalue
    exact hvalue
  | ok r =>
    rw [hr] at hvalue
    exact endsAt_of_next hvalue fun v => hItems v _

private theorem endsAt_readFields_succ (hValue : ∀ t, Ends t (readValue fuel t))
    (hFields : ∀ t done, EndsAt 0x7D t (readFields fuel t done)) (t : Text) (done : List (Value × Value)) :
    EndsAt 0x7D t (readFields (fuel + 1) t done) := by
  rw [readFields]
  cases hk : readKey t with
  | none => exact .inl rfl
  | some k =>
    have hkey := leaves_of_readKey hk
    have hvalue := hValue k.2
    dsimp only
    cases hr : readValue fuel k.2 with
    | error f =>
      rw [hr] at hvalue
      exact hvalue
    | ok r =>
      rw [hr] at hvalue
      exact endsAt_of_next (hkey.trans hvalue) fun v => hFields v _

end Step

/-- The reader of values, the one of items and the one of fields take what leads from outside to outside. -/
private theorem ends_read (fuel : Nat) : (∀ t, Ends t (readValue fuel t)) ∧
    (∀ t done, EndsAt 0x5D t (readItems fuel t done)) ∧ ∀ t done, EndsAt 0x7D t (readFields fuel t done) := by
  induction fuel with
  | zero => exact ⟨fun t => .inl rfl, fun t done => .inl rfl, fun t done => .inl rfl⟩
  | succ fuel ih =>
    obtain ⟨hValue, hItems, hFields⟩ := ih
    exact ⟨ends_readValue_succ hItems hFields, endsAt_readItems_succ hValue hItems,
      endsAt_readFields_succ hValue hFields⟩

/-- A text that is read leads from outside to outside. -/
theorem balanced_of_read {v : Value} (h : read t = .ok v) : Balanced t := by
  have hv := (ends_read (t.length + 1)).1 (skip t)
  rw [read] at h
  cases hr : readValue (t.length + 1) (skip t) with
  | error f => simp [hr] at h
  | ok r =>
    rw [hr] at hv h
    dsimp only at h
    split at h
    · rename_i he
      have hskip := leaves_skip r.2
      rw [List.isEmpty_iff.mp he] at hskip
      obtain ⟨used, hu, hb⟩ := ((leaves_skip t).trans hv).trans hskip
      rw [List.append_nil] at hu
      rwa [hu]
    · simp at h

theorem eq_of_read_eq_error {f : Fault} (h : read t = .error f) : f = malformed ∨ f = .oversized := by
  have hv := (ends_read (t.length + 1)).1 (skip t)
  rw [read] at h
  cases hr : readValue (t.length + 1) (skip t) with
  | error g =>
    rw [hr] at hv h
    exact Except.error.inj h ▸ hv
  | ok r =>
    rw [hr] at h
    dsimp only at h
    split at h
    · simp at h
    · exact .inl (Except.error.inj h).symm

end AuditTrail.Json
