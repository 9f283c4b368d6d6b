import AuditTrail.Proofs.Decimal.IntegerTexts
import Mathlib.Algebra.Order.Field.Rat

/-!
# Numerals

A numeral is the text of a number by the grammar of JSON: digits that do not start with a zero unless they are one,
perhaps a point with decimal places behind it, and perhaps an exponent. It has an exact value. A text is that of one
numeral at most (`Numeral.eq_of_text_eq`), so that a text of the grammar has one value.
-/

namespace AuditTrail.Decimal

/-- The exponent of a numeral, whose mark is an `e` in either case. -/
structure Power where
  capital : Bool
  sign : Sign
  digits : List Nat
deriving DecidableEq

namespace Power

def text (p : Power) : Text :=
  lit (if p.capital then "E" else "e") ++ (p.sign.text ++ textOfDigits p.digits)

def value (p : Power) : Int := p.sign.apply (Decimal.value p.digits)

end Power

/-- The parts of a number's text. -/
structure Numeral where
  negative : Bool
  whole : List Nat
  places : Option (List Nat)
  power : Option Power
deriving DecidableEq

def signText (negative : Bool) : Text := if negative then lit "-" else []

def withSign (negative : Bool) (q : ℚ) : ℚ := if negative then -q else q

namespace Numeral

def placesText : Option (List Nat) → Text
  | none => []
  | some ds => lit "." ++ textOfDigits ds

def powerText : Option Power → Text
  | none => []
  | some p => p.text

def text (n : Numeral) : Text :=
  signText n.negative ++ (textOfDigits n.whole ++ (placesText n.places ++ powerText n.power))

/-- The grammar of JSON: no needless zero in front, no point without places, no mark without an exponent. -/
structure IsJson (n : Numeral) : Prop where
  leads : n.whole = [0] ∨ Leads n.whole
  whole : ∀ d ∈ n.whole, d < 10
  places : ∀ ds ∈ n.places, ds ≠ [] ∧ ∀ d ∈ ds, d < 10
  power : ∀ p ∈ n.power, p.digits ≠ [] ∧ ∀ d ∈ p.digits, d < 10

/-- The number of all digits before the exponent, as if there were no point. -/
def coefficient (n : Numeral) : Nat := value (n.whole ++ n.places.getD [])

def exponent (n : Numeral) : Int := (n.power.elim 0 Power.value) - (n.places.getD []).length

def magnitude (n : Numeral) : ℚ := n.coefficient * 10 ^ n.exponent

def ratio (n : Numeral) : ℚ := withSign n.negative n.magnitude

end Numeral

private theorem digit?_eq_none {c : CodePoint} (h : c.val < 48 ∨ 57 < c.val) : c.digit? = none := by
  rw [CodePoint.digit?, if_neg (by omega)]

private theorem textOfDigits_append_inj {ds es : List Nat} {s t : Text} (hd : ∀ d ∈ ds, d < 10) (he : ∀ d ∈ es, d < 10)
    (hs : ∀ c ∈ s.head?, c.digit? = none) (ht : ∀ c ∈ t.head?, c.digit? = none)
    (h : textOfDigits ds ++ s = textOfDigits es ++ t) : ds = es ∧ s = t := by
  have hspan := spanDigits_textOfDigits hd hs
  rw [h, spanDigits_textOfDigits he ht, Prod.mk.injEq] at hspan
  exact ⟨hspan.1.symm, hspan.2.symm⟩

private theorem val_of_head_textOfDigits {ds : List Nat} (hne : ds ≠ []) (hd : ∀ d ∈ ds, d < 10) {c : CodePoint}
    {s t : Text} (h : textOfDigits ds ++ s = c :: t) : 48 ≤ c.val ∧ c.val ≤ 57 := by
  cases ds with
  | nil => exact absurd rfl hne
  | cons d ds =>
    rw [textOfDigits, List.map_cons, List.cons_append, List.cons.injEq] at h
    have hlt := hd d List.mem_cons_self
    rw [← h.1, val_ofDigit hlt]
    omega

private theorem Power.text_eq_cons (p : Power) :
    p.text = CodePoint.ofChar (if p.capital then 'E' else 'e') :: (p.sign.text ++ textOfDigits p.digits) := by
  have hmark : lit (if p.capital then "E" else "e") = [CodePoint.ofChar (if p.capital then 'E' else 'e')] := by
    cases p.capital <;> rfl
  rw [text, hmark, List.singleton_append]

private theorem Power.text_injective {p q : Power} (hp : p.digits ≠ [] ∧ ∀ d ∈ p.digits, d < 10)
    (hq : q.digits ≠ [] ∧ ∀ d ∈ q.digits, d < 10) (h : p.text = q.text) : p = q := by
  obtain ⟨a, s, ds⟩ := p
  obtain ⟨b, t, es⟩ := q
  rw [text_eq_cons, text_eq_cons, List.cons.injEq] at h
  obtain ⟨hcapital, hrest⟩ := h
  have hmark : ∀ a b : Bool, CodePoint.ofChar (if a then 'E' else 'e') = CodePoint.ofChar (if b then 'E' else 'e') →
      a = b := by decide
  have hab : a = b := hmark a b hcapital
  have hplus : lit "+" = [CodePoint.ofChar '+'] := rfl
  have hminus : lit "-" = [CodePoint.ofChar '-'] := rfl
  -- The digits of an exponent do not start like the sign of another one.
  have hbare : ∀ {fs : List Nat} {c : CodePoint} {u : Text}, (fs ≠ [] ∧ ∀ d ∈ fs, d < 10) → c.val < 48 →
      textOfDigits fs ≠ c :: u := by
    intro fs c u hf hc he
    rw [← List.append_nil (textOfDigits fs)] at he
    have := val_of_head_textOfDigits hf.1 hf.2 he
    omega
  have hst : s = t ∧ textOfDigits ds = textOfDigits es := by
    cases s <;> cases t <;>
      simp only [Sign.text, hplus, hminus, List.nil_append, List.singleton_append, List.cons.injEq] at hrest
    · exact ⟨rfl, hrest⟩
    · exact absurd hrest (hbare hp (by decide))
    · exact absurd hrest (hbare hp (by decide))
    · exact absurd hrest.symm (hbare hq (by decide))
    · exact ⟨rfl, hrest.2⟩
    · exact absurd hrest.1 (by decide)
    · exact absurd hrest.symm (hbare hq (by decide))
    · exact absurd hrest.1 (by decide)
    · exact ⟨rfl, hrest.2⟩
  obtain rfl : ds = es := textOfDigits_injective hp.2 hq.2 hst.2
  rw [hab, hst.1]

namespace Numeral

private theorem val_of_head_powerText {p : Option Power} {c : CodePoint} (h : c ∈ (powerText p).head?) :
    57 < c.val := by
  cases p with
  | none => exact absurd h (by simp [powerText])
  | some p =>
    rw [powerText, p.text_eq_cons, List.head?_cons, Option.mem_some_iff] at h
    rw [← h]
    cases p.capital <;> decide

private theorem digit?_of_head_powerText {p : Option Power} : ∀ c ∈ (powerText p).head?, c.digit? = none :=
  fun _ hc => digit?_eq_none (.inr (val_of_head_powerText hc))

private theorem digit?_of_head_places {ds : Option (List Nat)} {p : Option Power} :
    ∀ c ∈ (placesText ds ++ powerText p).head?, c.digit? = none := by
  cases ds with
  | none => exact digit?_of_head_powerText
  | some ds =>
    intro c hc
    obtain rfl : CodePoint.ofChar '.' = c := Option.some.inj hc
    rfl

private theorem power_eq_of_text_eq {p q : Option Power} (hp : ∀ r ∈ p, r.digits ≠ [] ∧ ∀ d ∈ r.digits, d < 10)
    (hq : ∀ r ∈ q, r.digits ≠ [] ∧ ∀ d ∈ r.digits, d < 10) (h : powerText p = powerText q) : p = q := by
  have hne : ∀ r : Power, r.text ≠ [] := fun r => by
    rw [r.text_eq_cons]
    exact List.cons_ne_nil _ _
  cases p with
  | none =>
    cases q with
    | none => rfl
    | some q => exact absurd h.symm (hne q)
  | some p =>
    cases q with
    | none => exact absurd h (hne p)
    | some q => rw [Power.text_injective (hp p rfl) (hq q rfl) h]

private theorem places_eq_of_text_eq {ds es : Option (List Nat)} {p q : Option Power}
    (hd : ∀ l ∈ ds, l ≠ [] ∧ ∀ d ∈ l, d < 10) (he : ∀ l ∈ es, l ≠ [] ∧ ∀ d ∈ l, d < 10)
    (h : placesText ds ++ powerText p = placesText es ++ powerText q) : ds = es ∧ powerText p = powerText q := by
  have hl : lit "." = [CodePoint.ofChar '.'] := rfl
  -- A point is no mark of an exponent.
  have hpoint : ∀ {r : Option Power} {t : Text}, powerText r ≠ CodePoint.ofChar '.' :: t := by
    intro r t hr
    have hlt : 57 < (CodePoint.ofChar '.').val := val_of_head_powerText (p := r) (by rw [hr]; rfl)
    exact absurd hlt (by decide)
  cases ds with
  | none =>
    cases es with
    | none => exact ⟨rfl, h⟩
    | some es =>
      simp only [placesText, hl, List.nil_append, List.cons_append] at h
      exact absurd h hpoint
  | some ds =>
    cases es with
    | none =>
      simp only [placesText, hl, List.nil_append, List.cons_append] at h
      exact absurd h.symm hpoint
    | some es =>
      simp only [placesText, List.append_assoc, List.append_cancel_left_eq] at h
      obtain ⟨hds, hpq⟩ := textOfDigits_append_inj (hd ds rfl).2 (he es rfl).2 digit?_of_head_powerText
        digit?_of_head_powerText h
      exact ⟨congrArg some hds, hpq⟩

private theorem IsJson.whole_ne_nil {n : Numeral} (h : n.IsJson) : n.whole ≠ [] := by
  rcases h.leads with hz | ⟨a, rest, he, -⟩
  · rw [hz]
    exact List.cons_ne_nil 0 []
  · rw [he]
    exact List.cons_ne_nil a rest

/-- A text of the grammar is that of one numeral. -/
theorem eq_of_text_eq {m n : Numeral} (hm : m.IsJson) (hn : n.IsJson) (h : m.text = n.text) : m = n := by
  have hsign : ∀ {a : Bool}, signText a = if a then [CodePoint.ofChar '-'] else [] := fun {a} => by cases a <;> rfl
  have hminus : ∀ {k : Numeral} {t u : Text}, k.IsJson → textOfDigits k.whole ++ t ≠ CodePoint.ofChar '-' :: u := by
    intro k t u hk he
    have hlt := (val_of_head_textOfDigits hk.whole_ne_nil hk.whole he).1
    exact absurd hlt (by decide)
  have hunsigned : m.negative = n.negative ∧ textOfDigits m.whole ++ (placesText m.places ++ powerText m.power) =
      textOfDigits n.whole ++ (placesText n.places ++ powerText n.power) := by
    rw [text, text, hsign, hsign] at h
    cases hmn : m.negative <;> cases hnn : n.negative <;>
      simp only [hmn, hnn, Bool.false_eq_true, if_true, if_false, List.nil_append, List.singleton_append,
        List.cons.injEq, true_and] at h
    · exact ⟨rfl, h⟩
    · exact absurd h (hminus hm)
    · exact absurd h.symm (hminus hn)
    · exact ⟨rfl, h⟩
  obtain ⟨hnegative, hbody⟩ := hunsigned
  obtain ⟨hwhole, htail⟩ := textOfDigits_append_inj hm.whole hn.whole digit?_of_head_places digit?_of_head_places hbody
  obtain ⟨hplaces, hpower⟩ := places_eq_of_text_eq hm.places hn.places htail
  have hp := power_eq_of_text_eq hm.power hn.power hpower
  obtain ⟨a, w, ds, p⟩ := m
  obtain ⟨b, v, es, q⟩ := n
  simp only at hnegative hwhole hplaces hp
  rw [hnegative, hwhole, hplaces, hp]

end Numeral

end AuditTrail.Decimal
