import AuditTrail.Proofs.Canonical.Spelling
import AuditTrail.Proofs.Decimal.DigitText
import AuditTrail.Proofs.Decimal.ShortestDigits
import AuditTrail.Proofs.Digest.HexDigits

/-!
# Scanning canonical text

A scanner tells which code points lie inside quoted texts, and counts the brackets that are open
outside of them. It stops at a bar outside of quoted texts or behind a backslash, where JSON has
none. Canonical text leads from outside to outside (`balanced_of_encode`). What leads from outside to
outside does not lead there from the inside, where the quotation marks have changed their meaning
(`Balanced.inside_of_scan`), and so no canonical text is the end of another one behind a bar
(`Balanced.ne_append_bar`).
-/

namespace AuditTrail

/-- Outside of quoted texts, inside one, or behind a backslash inside one. -/
inductive Zone where
  | outside
  | inside
  | escaped
deriving DecidableEq

/-- A zone, and the count of open brackets. -/
structure Spot where
  zone : Zone
  depth : Nat
deriving DecidableEq

namespace Spot

def next (s : Spot) (c : CodePoint) : Option Spot :=
  match s.zone with
  | .outside =>
    if c.val = 0x22 then some ⟨.inside, s.depth⟩
    else if c.val = 0x5C ∨ c.val = 0x7C then none
    else if c.val = 0x5B ∨ c.val = 0x7B then some ⟨.outside, s.depth + 1⟩
    else if c.val = 0x5D ∨ c.val = 0x7D then
      match s.depth with
      | 0 => none
      | d + 1 => some ⟨.outside, d⟩
    else some s
  | .inside =>
    if c.val = 0x22 then some ⟨.outside, s.depth⟩
    else if c.val = 0x5C then some ⟨.escaped, s.depth⟩
    else some s
  | .escaped => if c.val = 0x7C then none else some ⟨.inside, s.depth⟩

def scan (s : Spot) : Text → Option Spot
  | [] => some s
  | c :: t => (s.next c).bind fun s => s.scan t

private theorem scan_append (s : Spot) (t u : Text) : s.scan (t ++ u) = (s.scan t).bind fun s => s.scan u := by
  induction t generalizing s with
  | nil => rfl
  | cons c t ih =>
    rw [List.cons_append, scan, scan]
    cases s.next c with
    | none => rfl
    | some r => exact ih r

theorem scan_append_of_eq {s r : Spot} {t : Text} (h : s.scan t = some r) (u : Text) :
    s.scan (t ++ u) = r.scan u := by
  rw [scan_append, h, Option.bind_some]

private theorem exists_scan_of_append {s r : Spot} {t u : Text} (h : s.scan (t ++ u) = some r) :
    ∃ q, s.scan t = some q ∧ q.scan u = some r := by
  rw [scan_append] at h
  exact Option.bind_eq_some_iff.mp h

private theorem next_deeper {s r : Spot} {c : CodePoint} (h : s.next c = some r) (k : Nat) :
    (Spot.mk s.zone (s.depth + k)).next c = some ⟨r.zone, r.depth + k⟩ := by
  obtain ⟨zone, depth⟩ := s
  cases zone with
  | outside =>
    simp only [next] at h ⊢
    by_cases h1 : c.val = 0x22
    · simp only [h1, if_true, Option.some.injEq] at h ⊢
      rw [← h]
    · by_cases h2 : c.val = 0x5C ∨ c.val = 0x7C
      · simp [h1, h2] at h
      · by_cases h3 : c.val = 0x5B ∨ c.val = 0x7B
        · simp only [h1, h2, h3, if_true, if_false, Option.some.injEq] at h ⊢
          rw [← h]
          simp only [Spot.mk.injEq, true_and]
          omega
        · by_cases h4 : c.val = 0x5D ∨ c.val = 0x7D
          · simp only [h1, h2, h3, h4, if_true, if_false] at h ⊢
            cases depth with
            | zero => simp at h
            | succ d =>
              simp only [Option.some.injEq] at h
              rw [← h, Nat.add_right_comm]
          · simp only [h1, h2, h3, h4, if_false, Option.some.injEq] at h ⊢
            rw [← h]
  | inside =>
    simp only [next] at h ⊢
    by_cases h1 : c.val = 0x22
    · simp only [h1, if_true, Option.some.injEq] at h ⊢
      rw [← h]
    · by_cases h2 : c.val = 0x5C
      · rw [if_neg h1, if_pos h2, Option.some.injEq] at h
        rw [if_neg h1, if_pos h2, ← h]
      · simp only [h1, h2, if_false, Option.some.injEq] at h ⊢
        rw [← h]
  | escaped =>
    simp only [next] at h ⊢
    by_cases h1 : c.val = 0x7C
    · simp [h1] at h
    · simp only [h1, if_false, Option.some.injEq] at h ⊢
      rw [← h]

private theorem scan_deeper {s r : Spot} {t : Text} (h : s.scan t = some r) (k : Nat) :
    (Spot.mk s.zone (s.depth + k)).scan t = some ⟨r.zone, r.depth + k⟩ := by
  induction t generalizing s with
  | nil =>
    simp only [scan, Option.some.injEq] at h ⊢
    rw [h]
  | cons c t ih =>
    rw [scan] at h ⊢
    obtain ⟨q, hq, hr⟩ := Option.bind_eq_some_iff.mp h
    rw [next_deeper hq k, Option.bind_some]
    exact ih hr

end Spot

/-- A text leads from outside to outside and closes the brackets that it opens. -/
def Balanced (t : Text) : Prop := Spot.scan ⟨.outside, 0⟩ t = some ⟨.outside, 0⟩

namespace Balanced

open Spot

variable {t u : Text}

private theorem scan_outside (h : Balanced t) (d : Nat) : Spot.scan ⟨.outside, d⟩ t = some ⟨.outside, d⟩ := by
  have hd := scan_deeper h d
  simp only [Nat.zero_add] at hd
  exact hd

theorem nil : Balanced [] := rfl

theorem append (ht : Balanced t) (hu : Balanced u) : Balanced (t ++ u) := by
  rw [Balanced, scan_append_of_eq ht]
  exact hu

theorem join {separator : Text} (hs : Balanced separator) {ts : List Text} (h : ∀ t ∈ ts, Balanced t) :
    Balanced (Text.join separator ts) := by
  induction ts with
  | nil => exact nil
  | cons t us ih =>
    cases us with
    | nil => exact h t List.mem_cons_self
    | cons u us =>
      have hr := ih fun v hv => h v (List.mem_cons_of_mem t hv)
      exact ((h t List.mem_cons_self).append hs).append hr

theorem enclose {l r : Text} (hl : Spot.scan ⟨.outside, 0⟩ l = some ⟨.outside, 1⟩) (h : Balanced t)
    (hr : Spot.scan ⟨.outside, 1⟩ r = some ⟨.outside, 0⟩) : Balanced (l ++ t ++ r) := by
  rw [Balanced, List.append_assoc, scan_append_of_eq hl, scan_append_of_eq (h.scan_outside 1), hr]

end Balanced

namespace Canonical

open Spot

/-- Code points that do not move the scanner outside of quoted texts. -/
def isQuiet (c : CodePoint) : Bool := !([0x22, 0x5B, 0x5C, 0x5D, 0x7B, 0x7C, 0x7D].contains c.val)

theorem balanced_of_isQuiet {t : Text} (h : ∀ c ∈ t, isQuiet c = true) : Balanced t := by
  induction t with
  | nil => exact Balanced.nil
  | cons c t ih =>
    have hc := h c List.mem_cons_self
    have ht := ih fun d hd => h d (List.mem_cons_of_mem c hd)
    simp only [isQuiet, Bool.not_eq_true', List.contains_eq_mem, List.mem_cons, List.not_mem_nil, or_false,
      decide_eq_false_iff_not, not_or] at hc
    have hn : (Spot.mk .outside 0).next c = some ⟨.outside, 0⟩ := by
      simp only [next]
      rw [if_neg (by omega), if_neg (by omega), if_neg (by omega), if_neg (by omega)]
    rw [Balanced, scan, hn]
    exact ht

def isNumeral (c : CodePoint) : Bool := 0x22 < c.val && c.val < 0x5B || c.val == 0x65

theorem isQuiet_of_isNumeral {c : CodePoint} (h : isNumeral c = true) : isQuiet c = true := by
  simp only [isNumeral, Bool.or_eq_true, Bool.and_eq_true, decide_eq_true_eq, beq_iff_eq] at h
  simp only [isQuiet, Bool.not_eq_true', List.contains_eq_mem, List.mem_cons, List.not_mem_nil, or_false,
    decide_eq_false_iff_not, not_or]
  omega

private theorem balanced_of_isNumeral {t : Text} (h : ∀ c ∈ t, isNumeral c = true) : Balanced t :=
  balanced_of_isQuiet fun c hc => isQuiet_of_isNumeral (h c hc)

private theorem isNumeral_of_mem_digits {ds : List Nat} (h : ∀ d ∈ ds, d < 10) {c : CodePoint}
    (hc : c ∈ Decimal.textOfDigits ds) : isNumeral c = true := by
  have hv := Decimal.val_of_mem_textOfDigits h hc
  simp only [isNumeral, Bool.or_eq_true, Bool.and_eq_true, decide_eq_true_eq]
  omega

theorem isNumeral_of_mem_ofInt {i : Int} {c : CodePoint} (h : c ∈ Decimal.ofInt i) : isNumeral c = true := by
  have hn : ∀ {c}, c ∈ Decimal.ofNat i.natAbs → isNumeral c = true := fun hm =>
    isNumeral_of_mem_digits (fun _ => Decimal.lt_ten_of_mem_digits) hm
  rw [Decimal.ofInt] at h
  split at h
  · rcases List.mem_cons.mp h with rfl | hm
    · decide
    · exact hn hm
  · exact hn h

private theorem isNumeral_of_mem_lit {s : String} (h : (lit s).all isNumeral = true) {c : CodePoint}
    (hc : c ∈ lit s) : isNumeral c = true := List.all_eq_true.mp h c hc

private theorem isNumeral_of_mem_zeros {n : Nat} {c : CodePoint}
    (h : c ∈ List.replicate n (CodePoint.ofChar '0')) : isNumeral c = true := by
  rw [List.eq_of_mem_replicate h]
  decide

private theorem isNumeral_of_mem_plain {d : Decimal.Pointed} (hd : ∀ n ∈ d.digits, n < 10) {c : CodePoint}
    (h : c ∈ d.plain canonicalStyle) : isNumeral c = true := by
  rw [Decimal.Pointed.plain] at h
  split at h
  · rcases List.mem_append.mp h with hm | hm
    · rcases List.mem_append.mp hm with hm | hm
      · exact isNumeral_of_mem_lit (by decide) hm
      · exact isNumeral_of_mem_zeros hm
    · exact isNumeral_of_mem_digits hd hm
  · split at h
    · rw [canonicalStyle, if_neg (by decide), List.append_nil] at h
      rcases List.mem_append.mp h with hm | hm
      · exact isNumeral_of_mem_digits hd hm
      · exact isNumeral_of_mem_zeros hm
    · rcases List.mem_append.mp h with hm | hm
      · rcases List.mem_append.mp hm with hm | hm
        · exact isNumeral_of_mem_digits (fun n hn => hd n (List.mem_of_mem_take hn)) hm
        · exact isNumeral_of_mem_lit (by decide) hm
      · exact isNumeral_of_mem_digits (fun n hn => hd n (List.mem_of_mem_drop hn)) hm

private theorem isNumeral_of_mem_scientific {d : Decimal.Pointed} (hd : ∀ n ∈ d.digits, n < 10) {c : CodePoint}
    (h : c ∈ d.scientific canonicalStyle) : isNumeral c = true := by
  have hs : ∀ {ds : List Nat}, (∀ n ∈ ds, n ∈ d.digits) → c ∈ Decimal.textOfDigits ds → isNumeral c = true :=
    fun hsub hm => isNumeral_of_mem_digits (fun n hn => hd n (hsub n hn)) hm
  rw [Decimal.Pointed.scientific] at h
  rcases List.mem_append.mp h with h | hm
  · rcases List.mem_append.mp h with h | hm
    · rcases List.mem_append.mp h with hm | hm
      · split at hm
        · exact absurd hm List.not_mem_nil
        · rename_i a he
          exact hs (by simp [he]) hm
        · rename_i a rest _ he
          rcases List.mem_append.mp hm with hm | hm
          · rcases List.mem_append.mp hm with hm | hm
            · exact hs (by simp [he]) hm
            · exact isNumeral_of_mem_lit (by decide) hm
          · exact hs (fun n hn => he ▸ List.mem_cons_of_mem a hn) hm
      · exact isNumeral_of_mem_lit (by decide) hm
    · split at hm
      · exact isNumeral_of_mem_lit (by decide) hm
      · exact isNumeral_of_mem_lit (by decide) hm
  · rw [Decimal.padded_eq] at hm
    exact isNumeral_of_mem_digits (fun _ => Decimal.lt_ten_of_mem_paddedDigits) hm

theorem isNumeral_of_mem_floatText {x : Binary64} {c : CodePoint} (h : c ∈ floatText x) :
    isNumeral c = true := by
  rcases List.mem_append.mp h with hm | hm
  · split at hm
    · exact isNumeral_of_mem_lit (by decide) hm
    · exact absurd hm List.not_mem_nil
  · rw [Decimal.Pointed.layout] at hm
    split at hm
    · exact isNumeral_of_mem_plain (fun _ => Binary64.lt_ten_of_mem_shortest) hm
    · exact isNumeral_of_mem_scientific (fun _ => Binary64.lt_ten_of_mem_shortest) hm

theorem scan_inside_of_plain {t : Text} (h : ∀ c ∈ t, c.val ≠ 0x22 ∧ c.val ≠ 0x5C) (d : Nat) :
    Spot.scan ⟨.inside, d⟩ t = some ⟨.inside, d⟩ := by
  induction t with
  | nil => rfl
  | cons c t ih =>
    obtain ⟨hq, hb⟩ := h c List.mem_cons_self
    have hn : (Spot.mk .inside d).next c = some ⟨.inside, d⟩ := by
      simp only [next, hq, hb, if_false]
    rw [scan, hn]
    exact ih fun e he => h e (List.mem_cons_of_mem c he)

private theorem scan_escape (c : CodePoint) (d : Nat) : Spot.scan ⟨.inside, d⟩ (escape c) = some ⟨.inside, d⟩ := by
  rw [escape]
  split
  · rfl
  · rfl
  · rfl
  · rfl
  · rfl
  · rfl
  · rfl
  · rename_i hq hb _ _ _ _ _
    split
    · -- The digits of a number follow a backslash and a letter.
      have hu : Spot.scan ⟨.inside, d⟩ (lit "\\u") = some ⟨.inside, d⟩ := rfl
      rw [scan_append_of_eq hu]
      refine scan_inside_of_plain (fun e he => ?_) d
      have hv := Text.val_of_mem_hex he
      omega
    · refine scan_inside_of_plain (fun e he => ?_) d
      rw [List.mem_singleton.mp he]
      exact ⟨hq, hb⟩

private theorem balanced_quote (t : Text) : Balanced (quote t) := by
  have hi : Spot.scan ⟨.inside, 0⟩ (t.flatMap escape) = some ⟨.inside, 0⟩ := by
    induction t with
    | nil => rfl
    | cons c t ih => rw [List.flatMap_cons, scan_append_of_eq (scan_escape c 0), ih]
  have ho : Spot.scan ⟨.outside, 0⟩ (lit "\"") = some ⟨.inside, 0⟩ := rfl
  rw [Balanced, quote, List.append_assoc, scan_append_of_eq ho, scan_append_of_eq hi]
  rfl

private theorem balanced_colon : Balanced (lit ":") := rfl

theorem balanced_comma : Balanced (lit ",") := rfl

theorem balanced_fieldText {key t : Text} (h : Balanced t) : Balanced (fieldText key t) :=
  ((balanced_quote key).append balanced_colon).append h

/-- Canonical text leads from outside to outside. -/
theorem hereditary_balanced : Hereditary fun t _ => Balanced t where
  null := rfl
  bool b := by cases b <;> rfl
  int i _ := balanced_of_isNumeral fun _ => isNumeral_of_mem_ofInt
  float x _ _ := balanced_of_isNumeral fun _ => isNumeral_of_mem_floatText
  text t _ := balanced_quote t
  list ps h := by
    refine Balanced.enclose rfl (Balanced.join balanced_comma ?_) rfl
    intro t ht
    obtain ⟨p, hp, rfl⟩ := List.mem_map.mp ht
    exact h p hp
  map fs h := by
    refine Balanced.enclose rfl (Balanced.join balanced_comma ?_) rfl
    intro t ht
    obtain ⟨f, hf, rfl⟩ := List.mem_map.mp ht
    exact balanced_fieldText (h f hf).2

theorem balanced_of_encode {v : Value} {t : Text} (h : encode v = .ok t) : Balanced t :=
  hereditary_balanced.of_encode v t h

end Canonical

namespace Spot

/-- Of two spots one is outside and one inside. -/
def Crossed (s r : Spot) : Prop :=
  s.zone = .outside ∧ r.zone = .inside ∨ s.zone = .inside ∧ r.zone = .outside

private theorem Crossed.symm {s r : Spot} (h : Crossed s r) : Crossed r s :=
  h.elim (fun h => .inr ⟨h.2, h.1⟩) fun h => .inl ⟨h.2, h.1⟩

private theorem crossed_of_outside {d e : Nat} {s r : Spot} {c : CodePoint}
    (hs : (Spot.mk .outside d).next c = some s) (hr : (Spot.mk .inside e).next c = some r) : Crossed s r := by
  simp only [next] at hs hr
  by_cases h1 : c.val = 0x22
  · rw [if_pos h1, Option.some.injEq] at hs hr
    rw [← hs, ← hr]
    exact .inr ⟨rfl, rfl⟩
  · by_cases h2 : c.val = 0x5C ∨ c.val = 0x7C
    · simp [h1, h2] at hs
    · have h3 : ¬c.val = 0x5C := fun h => h2 (.inl h)
      rw [if_neg h1, if_neg h3, Option.some.injEq] at hr
      rw [if_neg h1, if_neg h2] at hs
      refine .inl ⟨?_, by rw [← hr]⟩
      split at hs
      · rw [← Option.some.inj hs]
      · split at hs
        · cases d with
          | zero => simp at hs
          | succ d => rw [← Option.some.inj hs]
        · rw [← Option.some.inj hs]

/-- The same code points keep two spots crossed, as long as none of them stops the scanner. -/
private theorem crossed_next {s r s' r' : Spot} {c : CodePoint} (h : Crossed s r) (hs : s.next c = some s')
    (hr : r.next c = some r') : Crossed s' r' := by
  obtain ⟨zs, ds⟩ := s
  obtain ⟨zr, dr⟩ := r
  rcases h with ⟨hz, hy⟩ | ⟨hz, hy⟩
  · obtain rfl : zs = .outside := hz
    obtain rfl : zr = .inside := hy
    exact crossed_of_outside hs hr
  · obtain rfl : zs = .inside := hz
    obtain rfl : zr = .outside := hy
    exact (crossed_of_outside hr hs).symm

private theorem crossed_scan {s r s' r' : Spot} {t : Text} (h : Crossed s r) (hs : s.scan t = some s')
    (hr : r.scan t = some r') : Crossed s' r' := by
  induction t generalizing s r with
  | nil =>
    rw [scan, Option.some.injEq] at hs hr
    rw [← hs, ← hr]
    exact h
  | cons c t ih =>
    rw [scan] at hs hr
    obtain ⟨q, hq, hs⟩ := Option.bind_eq_some_iff.mp hs
    obtain ⟨p, hp, hr⟩ := Option.bind_eq_some_iff.mp hr
    exact ih (crossed_next h hq hp) hs hr

end Spot

/-- What leads from outside to outside leads from the inside to the inside, if it leads anywhere. -/
theorem Balanced.inside_of_scan {t : Text} (h : Balanced t) {d : Nat} {r : Spot}
    (hr : Spot.scan ⟨.inside, d⟩ t = some r) : r.zone = .inside := by
  rcases Spot.crossed_scan (.inl ⟨rfl, rfl⟩) h hr with ⟨-, hz⟩ | ⟨hz, -⟩
  · exact hz
  · exact absurd hz (by decide)

/-- A text that ends outside has no bar in front of a text that leads from outside to outside. -/
theorem Balanced.ne_append_bar {t u front : Text} (ht : Balanced t) (hu : Balanced u) :
    t ≠ front ++ lit "|" ++ u := by
  intro he
  rw [Balanced, he, List.append_assoc] at ht
  obtain ⟨s, -, hs⟩ := Spot.exists_scan_of_append ht
  obtain ⟨r, hr, hu'⟩ := Spot.exists_scan_of_append hs
  obtain ⟨zone, d⟩ := s
  cases zone with
  | outside => exact absurd hr (by simp [lit, Spot.scan, Spot.next, CodePoint.ofChar])
  | escaped => exact absurd hr (by simp [lit, Spot.scan, Spot.next, CodePoint.ofChar])
  | inside =>
    have hi : Spot.scan ⟨.inside, d⟩ (lit "|") = some ⟨.inside, d⟩ := rfl
    rw [hi, Option.some.injEq] at hr
    subst hr
    exact absurd (hu.inside_of_scan hu') (by decide)

namespace Balanced

open Spot

/-- In front of a balanced text that opens with a brace stands a balanced text, if all of it is balanced:
a brace behind a backslash leads back inside, where the text cannot get out of again. -/
theorem of_append_brace {s t : Text} (hs : Balanced (s ++ CodePoint.ofChar '{' :: t))
    (ht : Balanced (CodePoint.ofChar '{' :: t)) : Balanced s := by
  obtain ⟨⟨zone, d⟩, hq, hr⟩ := exists_scan_of_append hs
  have hinside : ∀ e, Spot.scan ⟨.inside, e⟩ (CodePoint.ofChar '{' :: t) ≠ some ⟨.outside, 0⟩ := fun e h =>
    absurd (ht.inside_of_scan h) (by decide)
  cases zone with
  | outside =>
    rw [ht.scan_outside d, Option.some.injEq, Spot.mk.injEq] at hr
    rw [Balanced, hq, hr.2]
  | inside => exact absurd hr (hinside d)
  | escaped => exact absurd hr (hinside d)

theorem eq_of_front {body s r : Text} (hb : Balanced body) (hs : s ++ r = lit "\x7b" ++ body ++ lit "\x7d")
    (hne : s ≠ []) (h : Balanced s) : s = lit "\x7b" ++ body ++ lit "\x7d" := by
  have hl : lit "\x7b" = [CodePoint.ofChar '{'] := rfl
  have hr : lit "\x7d" = [CodePoint.ofChar '}'] := rfl
  have ho : (Spot.mk .outside 0).next (CodePoint.ofChar '{') = some ⟨.outside, 1⟩ := rfl
  rw [hl, hr] at hs ⊢
  cases s with
  | nil => exact absurd rfl hne
  | cons c s =>
    rw [List.append_assoc, List.singleton_append, List.cons_append, List.cons.injEq] at hs
    obtain ⟨rfl, hs⟩ := hs
    rw [Balanced, scan, ho, Option.bind_some] at h
    -- Inside the braces one bracket is open everywhere.
    have hopen : ∀ x y, body = x ++ y → Spot.scan ⟨.outside, 1⟩ x ≠ some ⟨.outside, 0⟩ := by
      intro x y hxy hx
      rw [Balanced, hxy] at hb
      obtain ⟨q, hq, -⟩ := exists_scan_of_append hb
      have hd := scan_deeper hq 1
      rw [Nat.zero_add, hx, Option.some.injEq, Spot.mk.injEq] at hd
      omega
    rw [List.append_eq_append_iff] at hs
    rcases hs with ⟨y, hy, -⟩ | ⟨y, rfl, hy⟩
    · exact absurd h (hopen s y hy)
    · cases y with
      | nil => exact absurd h (by rw [List.append_nil]; exact hopen body [] (List.append_nil body).symm)
      | cons e y =>
        rw [List.cons_append, List.cons.injEq] at hy
        obtain ⟨rfl, hy⟩ := hy
        rw [(List.append_eq_nil_iff.mp hy.symm).1]
        rfl

end Balanced

end AuditTrail
