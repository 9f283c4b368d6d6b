import AuditTrail.Decimal.Integer
import AuditTrail.Proofs.Decimal.DigitText
import Mathlib.Data.List.Pairwise
import Mathlib.Data.List.TakeWhile

/-!
# Texts of integers

A text is read as an integer exactly if it spells that integer (`readInteger_eq_some_iff`): in white space, at most one
sign and then digits of any script, at most one underscore between two of them, and not more digits than the limit. The
digits of a number spell it, also behind zeros (`readInteger_ofInt`, `readInteger_padded`).
-/

namespace AuditTrail

namespace Text

variable {p : CodePoint → Bool}

private theorem exists_eq_trimmed (p : CodePoint → Bool) (t : Text) : ∃ before after : Text,
    t = before ++ (trimmed p t ++ after) ∧ (∀ c ∈ before, p c = true) ∧ ∀ c ∈ after, p c = true := by
  refine ⟨t.takeWhile p, ((t.dropWhile p).reverse.takeWhile p).reverse, ?_, fun c hc => List.mem_takeWhile_imp hc,
    fun c hc => List.mem_takeWhile_imp (List.mem_reverse.mp hc)⟩
  have hback := congrArg List.reverse (List.takeWhile_append_dropWhile (p := p) (l := (t.dropWhile p).reverse))
  rw [List.reverse_append, List.reverse_reverse] at hback
  rw [trimmed, hback, List.takeWhile_append_dropWhile]

private theorem dropWhile_append_eq {front rest : Text} (hf : ∀ c ∈ front, p c = true)
    (hr : ∀ c ∈ rest.head?, p c = false) :
    (front ++ rest).dropWhile p = rest := by
  rw [List.dropWhile_append_of_pos hf]
  cases rest with
  | nil => rfl
  | cons c rest => rw [List.dropWhile_cons, hr c rfl, if_neg (by decide)]

private theorem trimmed_eq {before core after : Text} (hb : ∀ c ∈ before, p c = true) (ha : ∀ c ∈ after, p c = true)
    (hhead : ∀ c ∈ core.head?, p c = false) (hlast : ∀ c ∈ core.getLast?, p c = false) (hne : core ≠ []) :
    trimmed p (before ++ (core ++ after)) = core := by
  have hfront : (core ++ after).head? = core.head? := by
    cases core with
    | nil => exact absurd rfl hne
    | cons c core => rfl
  rw [← List.head?_reverse] at hlast
  rw [trimmed, dropWhile_append_eq hb (hfront ▸ hhead), List.reverse_append,
    dropWhile_append_eq (fun c hc => ha c (List.mem_reverse.mp hc)) hlast, List.reverse_reverse]

private theorem mem_trimmed {c : CodePoint} (hp : p c = false) {t : Text} (h : c ∈ t) : c ∈ trimmed p t := by
  obtain ⟨before, after, ht, hb, ha⟩ := exists_eq_trimmed p t
  rw [ht, List.mem_append, List.mem_append] at h
  rcases h with h | h | h
  · exact absurd (hp.symm.trans (hb c h)) (by decide)
  · exact h
  · exact absurd (hp.symm.trans (ha c h)) (by decide)

end Text

namespace Decimal

/-- The code point is a digit of a script, as far behind the zero of the script as the digit is great. -/
def IsDigit (c : CodePoint) (d : Nat) : Prop := d < 10 ∧ ∃ z ∈ digitZeros, c.val = z + d

inductive Sign where
  | none
  | plus
  | minus
deriving DecidableEq

namespace Sign

def text : Sign → Text
  | none => []
  | plus => lit "+"
  | minus => lit "-"

def apply : Sign → Nat → Int
  | minus, n => -n
  | _, n => n

end Sign

/-- What may follow a digit of an integer: more digits, each perhaps behind an underscore. -/
inductive MoreDigits : Text → List Nat → Prop where
  | nil : MoreDigits [] []
  | digit {c : CodePoint} {d : Nat} {t : Text} {ds : List Nat} : IsDigit c d → MoreDigits t ds →
      MoreDigits (c :: t) (d :: ds)
  | underscore {u c : CodePoint} {d : Nat} {t : Text} {ds : List Nat} : u.val = 95 → IsDigit c d → MoreDigits t ds →
      MoreDigits (u :: c :: t) (d :: ds)

def DigitRun : Text → List Nat → Prop
  | c :: t, d :: ds => IsDigit c d ∧ MoreDigits t ds
  | _, _ => False

/-- A sign, if there is one, and digits, of which there are not too many. -/
def SignedRun (t : Text) (i : Int) : Prop :=
  ∃ (sign : Sign) (run : Text) (ds : List Nat), t = sign.text ++ run ∧ DigitRun run ds ∧ ds.length ≤ digitLimit ∧
    sign.apply (value ds) = i

/-- The text is that of an integer in white space. -/
def SpellsInteger (t : Text) (i : Int) : Prop :=
  ∃ before run after : Text, t = before ++ (run ++ after) ∧ (∀ c ∈ before, isMargin c = true) ∧
    (∀ c ∈ after, isMargin c = true) ∧ SignedRun run i

variable {c : CodePoint} {d : Nat}

private theorem eq_or_ge_of_mem_digitZeros : ∀ z ∈ digitZeros, z = 48 ∨ 127 ≤ z := by decide

private theorem pairwise_digitZeros : digitZeros.Pairwise fun y z => y + 10 ≤ z := by decide

private theorem apart_of_mem_digitZeros {y z : Nat} (hy : y ∈ digitZeros) (hz : z ∈ digitZeros) :
    y = z ∨ y + 10 ≤ z ∨ z + 10 ≤ y := by
  have : Std.Symm fun a b : Nat => a + 10 ≤ b ∨ b + 10 ≤ a := ⟨fun _ _ h => h.symm⟩
  have hapart : digitZeros.Pairwise fun a b => a + 10 ≤ b ∨ b + 10 ≤ a := pairwise_digitZeros.imp fun h => .inl h
  by_cases h : y = z
  · exact .inl h
  · exact .inr (hapart.forall hy hz h)

private theorem decimal?_eq_some_iff : c.decimal? = some d ↔ IsDigit c d := by
  rw [CodePoint.decimal?, Option.map_eq_some_iff]
  constructor
  · rintro ⟨z, hz, rfl⟩
    have hin := List.find?_some hz
    simp only [Bool.and_eq_true, decide_eq_true_eq] at hin
    exact ⟨by omega, z, List.mem_of_find?_eq_some hz, by omega⟩
  · rintro ⟨hd, z, hz, hc⟩
    cases hf : digitZeros.find? fun z => z ≤ c.val && c.val < z + 10 with
    | none =>
      have hno := List.find?_eq_none.mp hf z hz
      simp only [Bool.and_eq_true, decide_eq_true_eq] at hno
      omega
    | some y =>
      have hin := List.find?_some hf
      simp only [Bool.and_eq_true, decide_eq_true_eq] at hin
      rcases apart_of_mem_digitZeros (List.mem_of_find?_eq_some hf) hz with rfl | h | h
      · exact ⟨y, rfl, by omega⟩
      · omega
      · omega

private theorem digitAny?_eq_some_iff : digitAny? c = some d ↔ IsDigit c d := by
  rw [digitAny?]
  split
  · next hlt =>
    rw [CodePoint.digit?]
    constructor
    · intro h
      split at h
      · next hin =>
        have hval := Option.some.inj h
        exact ⟨by omega, 48, by decide, by omega⟩
      · exact absurd h (by simp)
    · rintro ⟨hd, z, hz, hc⟩
      rcases eq_or_ge_of_mem_digitZeros z hz with rfl | hge
      · rw [if_pos (by omega), hc, Nat.add_sub_cancel_left]
      · omega
  · exact decimal?_eq_some_iff

private theorem IsDigit.le (h : IsDigit c d) : 48 ≤ c.val := by
  obtain ⟨-, z, hz, hc⟩ := h
  rcases eq_or_ge_of_mem_digitZeros z hz with rfl | hge <;> omega

private theorem isDigit_ofDigit (h : d < 10) : IsDigit (CodePoint.ofDigit d) d := ⟨h, 48, by decide, val_ofDigit h⟩

private theorem not_blank_of_mem_digitZeros :
    ∀ z ∈ digitZeros, ∀ d < 10, inBounds false blankBounds (z + d) = false := by decide

private theorem IsDigit.isMargin (h : IsDigit c d) : Decimal.isMargin c = false := by
  have hge := h.le
  obtain ⟨hd, z, hz, hc⟩ := h
  have hplain : c.isPlainBlank = false := by
    rw [CodePoint.isPlainBlank, Bool.or_eq_false_iff, Bool.and_eq_false_iff, beq_eq_false_iff_ne,
      decide_eq_false_iff_not, decide_eq_false_iff_not]
    omega
  rw [Decimal.isMargin, hplain, CodePoint.isBlank, CodePoint.inClass, hc, not_blank_of_mem_digitZeros z hz d hd,
    Bool.and_false, Bool.or_false]

private theorem moreDigits?_eq_some_iff {t : Text} {done es : List Nat} :
    moreDigits? t done = some es ↔ ∃ ds, MoreDigits t ds ∧ es = ds.reverse ++ done := by
  constructor
  · intro h
    fun_induction moreDigits? t done with
    | case1 done => exact ⟨[], .nil, (Option.some.inj h).symm⟩
    | case2 c t done d hd ih =>
      obtain ⟨ds, hds, rfl⟩ := ih h
      exact ⟨d :: ds, .digit (digitAny?_eq_some_iff.mp hd) hds, by simp⟩
    | case4 u done _ hu c t d hd ih =>
      obtain ⟨ds, hds, rfl⟩ := ih h
      exact ⟨d :: ds, .underscore hu (digitAny?_eq_some_iff.mp hd) hds, by simp⟩
    | case3 | case5 | case6 => exact absurd h (by simp)
  · rintro ⟨ds, h, rfl⟩
    induction h generalizing done with
    | nil => rfl
    | digit hd _ ih =>
      rw [moreDigits?.eq_def]
      simp only [digitAny?_eq_some_iff.mpr hd, ih, List.reverse_cons, List.append_assoc, List.singleton_append]
    | @underscore u _ _ _ _ hu hd _ ih =>
      have hnone : digitAny? u = none := by
        rw [digitAny?, if_pos (by omega), CodePoint.digit?, if_neg (by omega)]
      rw [moreDigits?.eq_def]
      simp only [hnone, hu, if_true, digitAny?_eq_some_iff.mpr hd, ih, List.reverse_cons, List.append_assoc,
        List.singleton_append]

private theorem unsignedDigits?_eq_some_iff {t : Text} {ds : List Nat} :
    unsignedDigits? t = some ds ↔ DigitRun t ds := by
  cases t with
  | nil => simp [unsignedDigits?, DigitRun]
  | cons c t =>
    rw [unsignedDigits?]
    cases hc : digitAny? c with
    | none =>
      have hno : ¬DigitRun (c :: t) ds := by
        cases ds with
        | nil => exact id
        | cons d ds => exact fun h => absurd (hc.symm.trans (digitAny?_eq_some_iff.mpr h.1)) (by simp)
      simpa using hno
    | some d =>
      simp only [Option.map_eq_some_iff, moreDigits?_eq_some_iff]
      constructor
      · rintro ⟨_, ⟨es, hes, rfl⟩, rfl⟩
        rw [List.reverse_append, List.reverse_reverse]
        exact ⟨digitAny?_eq_some_iff.mp hc, hes⟩
      · intro h
        cases ds with
        | nil => exact h.elim
        | cons e es =>
          obtain rfl : d = e := Option.some.inj (hc.symm.trans (digitAny?_eq_some_iff.mpr h.1))
          exact ⟨_, ⟨es, h.2, rfl⟩, by simp⟩

private theorem bounded_eq_some_iff {t : Text} {i : Int} (f : Nat → Int) :
    ((unsignedDigits? t).bind boundedValue?).map f = some i ↔
      ∃ ds, DigitRun t ds ∧ ds.length ≤ digitLimit ∧ f (value ds) = i := by
  simp only [Option.map_eq_some_iff, Option.bind_eq_some_iff, unsignedDigits?_eq_some_iff, boundedValue?]
  constructor
  · rintro ⟨n, ⟨ds, hds, hn⟩, hi⟩
    split at hn
    · next hl => exact ⟨ds, hds, hl, by rw [Option.some.inj hn, hi]⟩
    · exact absurd hn (by simp)
  · rintro ⟨ds, hds, hl, hi⟩
    exact ⟨value ds, ⟨ds, hds, if_pos hl⟩, hi⟩

private theorem DigitRun.le {t : Text} {ds : List Nat} (h : DigitRun (c :: t) ds) : 48 ≤ c.val := by
  cases ds with
  | nil => exact h.elim
  | cons d ds => exact h.1.le

/-- The first code point tells which sign a run of digits has. -/
private theorem signedRun_cons_iff {t : Text} {i : Int} : SignedRun (c :: t) i ↔
    (c.val = 45 ∧ ∃ ds, DigitRun t ds ∧ ds.length ≤ digitLimit ∧ -(value ds : Int) = i) ∨
      (c.val = 43 ∧ ∃ ds, DigitRun t ds ∧ ds.length ≤ digitLimit ∧ (value ds : Int) = i) ∨
      ∃ ds, DigitRun (c :: t) ds ∧ ds.length ≤ digitLimit ∧ (value ds : Int) = i := by
  have hminus : lit "-" = [CodePoint.ofChar '-'] := rfl
  have hplus : lit "+" = [CodePoint.ofChar '+'] := rfl
  constructor
  · rintro ⟨sign, run, ds, ht, hr, hl, hi⟩
    cases sign with
    | none => exact .inr (.inr ⟨ds, ht ▸ hr, hl, hi⟩)
    | plus =>
      rw [Sign.text, hplus, List.singleton_append, List.cons.injEq] at ht
      exact .inr (.inl ⟨ht.1 ▸ rfl, ds, ht.2 ▸ hr, hl, hi⟩)
    | minus =>
      rw [Sign.text, hminus, List.singleton_append, List.cons.injEq] at ht
      exact .inl ⟨ht.1 ▸ rfl, ds, ht.2 ▸ hr, hl, hi⟩
  · rintro (⟨hc, ds, hr, hl, hi⟩ | ⟨hc, ds, hr, hl, hi⟩ | ⟨ds, hr, hl, hi⟩)
    · obtain rfl : c = CodePoint.ofChar '-' := CodePoint.eq_of_val_eq hc
      exact ⟨.minus, t, ds, rfl, hr, hl, hi⟩
    · obtain rfl : c = CodePoint.ofChar '+' := CodePoint.eq_of_val_eq hc
      exact ⟨.plus, t, ds, rfl, hr, hl, hi⟩
    · exact ⟨.none, c :: t, ds, rfl, hr, hl, hi⟩

private theorem not_signedRun_nil {i : Int} : ¬SignedRun [] i := by
  rintro ⟨sign, run, ds, ht, hr, -, -⟩
  rw [(List.append_eq_nil_iff.mp ht.symm).2] at hr
  exact hr

private theorem map_lift (o : Option Nat) (f : Int → Int) :
    Option.map f (do let n ← o; pure (n : Int)) = o.map fun n : Nat => f n := by
  cases o <;> rfl

private theorem readInteger_eq_some_iff_signedRun {t : Text} {i : Int} :
    readInteger t = some i ↔ SignedRun (Text.trimmed isMargin t) i := by
  rw [readInteger]
  cases Text.trimmed isMargin t with
  | nil => simpa using not_signedRun_nil
  | cons c rest =>
    have hle : ∀ ds, DigitRun (c :: rest) ds → 48 ≤ c.val := fun _ h => h.le
    dsimp only
    rw [signedRun_cons_iff]
    split
    · next hc =>
      rw [map_lift, bounded_eq_some_iff]
      refine ⟨fun h => .inl ⟨hc, h⟩, ?_⟩
      rintro (⟨-, h⟩ | ⟨h, -⟩ | ⟨ds, h, -⟩)
      · exact h
      · omega
      · exact absurd (hle ds h) (by omega)
    · next hc =>
      split
      · next hc' =>
        rw [bounded_eq_some_iff]
        refine ⟨fun h => .inr (.inl ⟨hc', h⟩), ?_⟩
        rintro (⟨h, -⟩ | ⟨-, h⟩ | ⟨ds, h, -⟩)
        · omega
        · exact h
        · exact absurd (hle ds h) (by omega)
      · next hc' =>
        rw [bounded_eq_some_iff]
        refine ⟨fun h => .inr (.inr h), ?_⟩
        rintro (⟨h, -⟩ | ⟨h, -⟩ | h)
        · exact absurd h hc
        · exact absurd h hc'
        · exact h

private theorem MoreDigits.mem {t : Text} {ds : List Nat} (h : MoreDigits t ds) (hc : c ∈ t) :
    c.val = 95 ∨ ∃ d, IsDigit c d := by
  induction h with
  | nil => exact absurd hc List.not_mem_nil
  | digit hd _ ih =>
    rcases List.mem_cons.mp hc with rfl | hc
    · exact .inr ⟨_, hd⟩
    · exact ih hc
  | underscore hu hd _ ih =>
    rcases List.mem_cons.mp hc with rfl | hc
    · exact .inl hu
    · rcases List.mem_cons.mp hc with rfl | hc
      · exact .inr ⟨_, hd⟩
      · exact ih hc

private theorem SignedRun.mem {t : Text} {i : Int} (h : SignedRun t i) (hc : c ∈ t) :
    (c.val = 43 ∨ c.val = 45 ∨ c.val = 95) ∨ ∃ d, IsDigit c d := by
  obtain ⟨sign, run, ds, rfl, hr, -, -⟩ := h
  rcases List.mem_append.mp hc with hs | hm
  · cases sign with
    | none => exact absurd hs List.not_mem_nil
    | plus => exact .inl (.inl (List.mem_singleton.mp hs ▸ rfl))
    | minus => exact .inl (.inr (.inl (List.mem_singleton.mp hs ▸ rfl)))
  · cases run with
    | nil => exact absurd hm List.not_mem_nil
    | cons a run =>
      cases ds with
      | nil => exact hr.elim
      | cons d ds =>
        rcases List.mem_cons.mp hm with rfl | hm
        · exact .inr ⟨d, hr.1⟩
        · exact (hr.2.mem hm).imp_left fun h => .inr (.inr h)

private theorem SignedRun.isMargin {t : Text} {i : Int} (h : SignedRun t i) (hc : c ∈ t) :
    Decimal.isMargin c = false := by
  rcases h.mem hc with hv | ⟨d, hd⟩
  · rw [Decimal.isMargin, CodePoint.isPlainBlank]
    simp only [Bool.or_eq_false_iff, Bool.and_eq_false_iff, beq_eq_false_iff_ne, decide_eq_false_iff_not]
    omega
  · exact hd.isMargin

/-- A text is read as an integer exactly if it spells it. -/
theorem readInteger_eq_some_iff {t : Text} {i : Int} : readInteger t = some i ↔ SpellsInteger t i := by
  rw [readInteger_eq_some_iff_signedRun]
  constructor
  · intro h
    obtain ⟨before, after, ht, hb, ha⟩ := Text.exists_eq_trimmed isMargin t
    exact ⟨before, _, after, ht, hb, ha, h⟩
  · rintro ⟨before, run, after, rfl, hb, ha, h⟩
    have hne : run ≠ [] := by
      rintro rfl
      exact not_signedRun_nil h
    rwa [Text.trimmed_eq hb ha (fun c hc => h.isMargin (List.mem_of_mem_head? hc))
      (fun c hc => h.isMargin (List.mem_of_getLast? hc)) hne]

private theorem readInteger_eq_some_of_signedRun {t : Text} {i : Int} (h : SignedRun t i) : readInteger t = some i :=
  readInteger_eq_some_iff.mpr ⟨[], t, [], by simp, by simp, by simp, h⟩

private theorem digitRun_textOfDigits {ds : List Nat} (hne : ds ≠ []) (h : ∀ d ∈ ds, d < 10) :
    DigitRun (textOfDigits ds) ds := by
  have hmore : ∀ es : List Nat, (∀ d ∈ es, d < 10) → MoreDigits (textOfDigits es) es := by
    intro es he
    induction es with
    | nil => exact .nil
    | cons e es ih =>
      exact .digit (isDigit_ofDigit (he e List.mem_cons_self)) (ih fun d hd => he d (List.mem_cons_of_mem e hd))
  cases ds with
  | nil => exact absurd rfl hne
  | cons d ds => exact ⟨isDigit_ofDigit (h d List.mem_cons_self), hmore ds fun e he => h e (List.mem_cons_of_mem d he)⟩

private theorem readInteger_textOfDigits {ds : List Nat} (hne : ds ≠ []) (h : ∀ d ∈ ds, d < 10)
    (hl : ds.length ≤ digitLimit) :
    readInteger (textOfDigits ds) = some (value ds) :=
  readInteger_eq_some_of_signedRun ⟨.none, _, ds, rfl, digitRun_textOfDigits hne h, hl, rfl⟩

theorem readInteger_padded {width n : Nat} (hw : 1 ≤ width) (hl : width ≤ digitLimit) (h : n < 10 ^ width) :
    readInteger (padded width n) = some n := by
  have hlen := length_paddedDigits hw h
  rw [padded_eq, readInteger_textOfDigits, value_paddedDigits]
  · intro he
    rw [he] at hlen
    simp at hlen
    omega
  · exact fun _ => lt_ten_of_mem_paddedDigits
  · omega

/-- An integer that has a text is read from it. -/
theorem readInteger_ofInt {i : Int} (h : isOversized i = false) : readInteger (ofInt i) = some i := by
  have hl : (digits i.natAbs).length ≤ digitLimit := length_digits_le (by decide) (isOversized_eq_false_iff.mp h)
  have hrun := digitRun_textOfDigits (digits_ne_nil i.natAbs) fun _ => lt_ten_of_mem_digits
  apply readInteger_eq_some_of_signedRun
  rw [ofInt]
  split
  · next hneg =>
    have hi : -((i.natAbs : Nat) : Int) = i := by omega
    exact ⟨.minus, _, digits i.natAbs, rfl, hrun, hl, by rw [Sign.apply, value_digits, hi]⟩
  · next hneg =>
    have hi : ((i.natAbs : Nat) : Int) = i := by omega
    exact ⟨.none, _, digits i.natAbs, rfl, hrun, hl, by rw [Sign.apply, value_digits, hi]; simp⟩

theorem readInteger_eq_none_of_slash {t : Text} (h : CodePoint.ofChar '/' ∈ t) : readInteger t = none := by
  rw [Option.eq_none_iff_forall_ne_some]
  intro i hi
  have hm := Text.mem_trimmed (p := isMargin) (by decide) h
  have hv : (CodePoint.ofChar '/').val = 47 := rfl
  rcases (readInteger_eq_some_iff_signedRun.mp hi).mem hm with hs | ⟨d, hd⟩
  · omega
  · have := hd.le
    omega

end Decimal

end AuditTrail
