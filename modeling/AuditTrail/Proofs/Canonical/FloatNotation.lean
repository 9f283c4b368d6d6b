import AuditTrail.Proofs.Decimal.Notation
import AuditTrail.Value.Canonical

/-!
# Notation of floating point numbers

The canonical text of a floating point number keeps the value of the number's literal, and so does the text of any
digits with an exponent (`Canonical.encodeFloat_keeps_value`). The text is one of the grammar of JSON without needless
zeros, with an exponent exactly outside of a range of values, so that a whole number of less than 22 digits has the text
of the integer.
-/

namespace AuditTrail

def Binary64.abs (x : Binary64) : Binary64 := ofMagnitude false x.magnitudeBits

namespace Binary64

private theorem magnitudeBits_abs (x : Binary64) : x.abs.magnitudeBits = x.magnitudeBits := by
  simp only [abs, ofMagnitude, magnitudeBits, Nat.pow_eq, UInt64.toNat_ofNat', Bool.false_eq_true, if_false]
  omega

private theorem isNegative_abs (x : Binary64) : x.abs.isNegative = false := by
  simp only [abs, ofMagnitude, isNegative, magnitudeBits, Nat.pow_eq, UInt64.toNat_ofNat', Bool.false_eq_true, if_false,
    decide_eq_false_iff_not]
  omega

-- An equation of functions, which is checked without computing digits.
private theorem literal_eq : literal = fun x : Binary64 =>
    (let sign : Text := if x.isNegative then lit "-" else []
    if x.isNaN then lit "nan"
    else if !x.isFinite then sign ++ lit "inf"
    else if x.isZero then sign ++ lit "0.0"
    else sign ++ x.shortest.layout messageStyle) := Eq.refl _

private theorem literal_abs {x : Binary64} (hf : x.isFinite = true) (hz : x.isZero = false) :
    x.abs.literal = x.shortest.layout messageStyle := by
  have hm := magnitudeBits_abs x
  have hfield : x.abs.exponentField = x.exponentField := by rw [exponentField, hm, exponentField]
  have hf' : x.abs.isFinite = true := by rwa [isFinite, hfield, ← isFinite]
  have hz' : x.abs.isZero = false := by rwa [isZero, hm, ← isZero]
  have hnan : x.abs.isNaN = false := by rw [isNaN, hf', Bool.not_true, Bool.false_and]
  rw [literal_eq, ← shortest_congr hm]
  simp only [hnan, hf', hz', isNegative_abs, Bool.not_true, Bool.false_eq_true, if_false]
  exact List.nil_append _

end Binary64

open Decimal

/-- A numeral without needless zeros, with an exponent if it is less than a millionth or if it is `10 ^ 21` or more. -/
structure Decimal.Numeral.IsCanonical (n : Numeral) : Prop where
  json : n.IsJson
  places : ∀ ds ∈ n.places, ds.getLast? ≠ some 0
  plain_iff : n.power = none ↔ (10 : ℚ) ^ (-6 : Int) ≤ n.magnitude ∧ n.magnitude < 10 ^ (21 : Int)
  scientific : ∀ p ∈ n.power, (∃ d, n.whole = [d] ∧ d ≠ 0) ∧ p.sign ≠ .none ∧ Leads p.digits

namespace Canonical

/-- The text is canonical for a number, and has no other value. -/
structure SpellsNumber (t : Text) (q : ℚ) : Prop where
  numeral : ∃ n : Numeral, n.text = t ∧ n.IsCanonical ∧ n.ratio = q
  unique : ∀ m : Numeral, m.IsJson → m.text = t → m.ratio = q
  integral : ∀ i : Int, q = i → |i| < 10 ^ 21 → ofInt i = t ∧ readInteger t = some i

def decimalText (negative : Bool) (ds : List Nat) (e : Int) : Text :=
  signText negative ++ (⟨Binary64.dropZeros ds, ds.length + e⟩ : Decimal.Pointed).layout canonicalStyle

variable (negative : Bool)

private theorem isCanonical_numeral {d : Decimal.Pointed} (h : IsNormal d.digits) :
    (d.numeral canonicalStyle negative).IsCanonical where
  json := d.isJson_numeral canonicalStyle negative h
  places := d.last_places_numeral canonicalStyle negative h rfl
  plain_iff := by
    rw [Pointed.magnitude_numeral canonicalStyle negative h.leads]
    exact Pointed.power_numeral_eq_none_iff canonicalStyle negative h
  scientific := by
    intro p hp
    obtain ⟨a, rest, he, ha⟩ := h.leads
    have hpower := Pointed.power_numeral (d := d) canonicalStyle negative
    rw [Option.mem_def.mp hp] at hpower
    split at hpower
    · exact absurd hpower (by simp)
    · next hs =>
      obtain rfl := Option.some.inj hpower
      have hpoint : (d.point - 1).natAbs ≠ 0 := by
        simp only [canonicalStyle] at hs
        omega
      refine ⟨⟨a, ?_, ha⟩, ?_, leads_paddedDigits hpoint⟩
      · rw [Pointed.numeral, if_neg hs, Pointed.scientificNumeral, he, List.take_succ_cons, List.take_zero]
      · rw [Power.ofStyle]
        split <;> simp

private theorem layout_plainDigits_zero {n : Nat} (h : n ≠ 0) (hn : n < 10 ^ 21) :
    (Binary64.plainDigits n 0).layout canonicalStyle = ofNat n := by
  have hlen : (digits n).length ≤ 21 := length_digits_le (by decide) hn
  have hpos := (leads_digits h).length_pos
  obtain ⟨k, hk⟩ := exists_eq_dropZeros (digits n)
  have hsum := congrArg List.length hk
  rw [List.length_append, List.length_replicate] at hsum
  have hzeros : ((digits n).length + (0 : Int)).toNat - (Binary64.dropZeros (digits n)).length = k := by omega
  rw [Binary64.plainDigits, Pointed.layout, if_pos, Pointed.plain]
  · dsimp only
    rw [if_neg (by omega), if_pos (by omega), hzeros, ← textOfDigits_zeros, ← textOfDigits_append, ← hk]
    simp [canonicalStyle, ofNat]
  · simp only [canonicalStyle]
    omega

private theorem withSign_eq_intCast {n : Nat} {e i : Int} (hn : n ≠ 0) (h : withSign negative (n * 10 ^ e) = i) :
    (n : ℚ) * 10 ^ e = i.natAbs ∧ i ≠ 0 ∧ signText negative = if i < 0 then [CodePoint.ofChar '-'] else [] := by
  have hpos : (0 : ℚ) < n * 10 ^ e := mul_pos (by exact_mod_cast Nat.pos_of_ne_zero hn) (zpow_pos (by norm_num) e)
  cases negative with
  | false =>
    rw [withSign, if_neg (by decide)] at h
    have hi : 0 < i := by exact_mod_cast h ▸ hpos
    have hcast : (i.natAbs : Int) = i := by omega
    refine ⟨?_, by omega, by rw [if_neg (by omega)]; rfl⟩
    rw [h, ← Int.cast_natCast, hcast]
  | true =>
    rw [withSign, if_pos rfl] at h
    have hval : (n : ℚ) * 10 ^ e = ((-i : Int) : ℚ) := by
      push_cast
      rw [← h, neg_neg]
    have hi : 0 < -i := by exact_mod_cast hval ▸ hpos
    have hcast : (i.natAbs : Int) = -i := by omega
    refine ⟨?_, by omega, by rw [if_pos (by omega)]; rfl⟩
    rw [hval, ← Int.cast_natCast, hcast]

private theorem spellsNumber_plainDigits {n : Nat} (h : n ≠ 0) (e : Int) :
    SpellsNumber (signText negative ++ (Binary64.plainDigits n e).layout canonicalStyle)
      (withSign negative (n * 10 ^ e)) := by
  have hnormal := Pointed.isNormal_plainDigits h e
  have htext := Pointed.text_numeral canonicalStyle negative hnormal.leads
  have hcanonical := isCanonical_numeral negative hnormal
  have hratio : ((Binary64.plainDigits n e).numeral canonicalStyle negative).ratio = withSign negative (n * 10 ^ e) := by
    rw [Numeral.ratio, Pointed.negative_numeral, Pointed.magnitude_numeral _ _ hnormal.leads, Pointed.ratio_plainDigits]
  refine ⟨⟨_, htext, hcanonical, hratio⟩, ?_, ?_⟩
  · intro m hm ht
    rw [Numeral.eq_of_text_eq hm hcanonical.json (ht.trans htext.symm), hratio]
  · intro i hi hlt
    obtain ⟨hvalue, hne, hsign⟩ := withSign_eq_intCast negative h hi
    have habs : i.natAbs < 10 ^ 21 := by
      rw [Int.abs_eq_natAbs] at hlt
      exact_mod_cast hlt
    have hdecimal : Binary64.plainDigits n e = Binary64.plainDigits i.natAbs 0 := by
      apply Pointed.eq_of_ratio_eq hnormal (Pointed.isNormal_plainDigits (Int.natAbs_ne_zero.mpr hne) 0)
      rw [Pointed.ratio_plainDigits, Pointed.ratio_plainDigits, hvalue, zpow_zero, mul_one]
    have hint : ofInt i = signText negative ++ (Binary64.plainDigits n e).layout canonicalStyle := by
      rw [hdecimal, layout_plainDigits_zero (Int.natAbs_ne_zero.mpr hne) habs, hsign, ofInt]
      split <;> rfl
    have hsize : isOversized i = false :=
      isOversized_eq_false_iff.mpr (habs.trans_le (Nat.pow_le_pow_right (by decide) (by decide)))
    exact ⟨hint, hint ▸ readInteger_ofInt hsize⟩

private theorem decimalText_eq {ds : List Nat} (hl : Leads ds) (hd : ∀ d ∈ ds, d < 10) (e : Int) :
    decimalText negative ds e =
      signText negative ++ (Binary64.plainDigits (value ds) e).layout canonicalStyle := by
  rw [decimalText, Binary64.plainDigits, digits_value hl hd]

private theorem spellsNumber_decimalText {ds : List Nat} (hl : Leads ds) (hd : ∀ d ∈ ds, d < 10) (e : Int) :
    SpellsNumber (decimalText negative ds e) (withSign negative (value ds * 10 ^ e)) := by
  rw [decimalText_eq negative hl hd]
  exact spellsNumber_plainDigits negative (value_ne_zero hl hd) e

/-- The literal of a magnitude is a numeral, whose digits and exponent are those of the canonical text. -/
private theorem exists_numeral_literal {x : Binary64} (hf : x.isFinite = true) (hz : x.isZero = false) :
    ∃ r : Numeral, r.IsJson ∧ r.text = x.abs.literal ∧ r.negative = false ∧ r.coefficient ≠ 0 ∧
      Binary64.plainDigits r.coefficient r.exponent = x.shortest := by
  have hnormal := Pointed.isNormal_shortest hz
  have htext := Pointed.text_numeral messageStyle false hnormal.leads
  have hsign : signText false = [] := rfl
  rw [hsign, List.nil_append, ← Binary64.literal_abs hf hz] at htext
  exact ⟨_, Pointed.isJson_numeral messageStyle false hnormal, htext, Pointed.negative_numeral messageStyle false,
    Pointed.coefficient_numeral_ne_zero messageStyle false hnormal, Pointed.plainDigits_numeral messageStyle false hnormal⟩

private theorem encodeFloat_eq {x : Binary64} (hf : x.isFinite = true) (hz : x.isZero = false) :
    encodeFloat x = .ok (signText x.isNegative ++ x.shortest.layout canonicalStyle) := by
  simp only [encodeFloat, hf, hz, Bool.not_true, Bool.false_eq_true, if_false, signText]

/-- Every text of digits with an exponent spells their value, and the canonical text of a floating point number is that of
the digits and the exponent of its literal. -/
theorem encodeFloat_keeps_value :
    (∀ (negative : Bool) (ds : List Nat) (e : Int), Leads ds → (∀ d ∈ ds, d < 10) →
      SpellsNumber (decimalText negative ds e) (withSign negative (value ds * 10 ^ e))) ∧
    ∀ x : Binary64, x.isFinite = true → x.isZero = false → ∃ r : Numeral, r.IsJson ∧ r.text = x.abs.literal ∧
      encodeFloat x = .ok (decimalText x.isNegative (digits r.coefficient) r.exponent) ∧
      SpellsNumber (decimalText x.isNegative (digits r.coefficient) r.exponent) (withSign x.isNegative r.ratio) := by
  refine ⟨fun negative ds e hl hd => spellsNumber_decimalText negative hl hd e, fun x hf hz => ?_⟩
  obtain ⟨r, hjson, htext, hpositive, hne, hshortest⟩ := exists_numeral_literal hf hz
  have hl := leads_digits hne
  have hd : ∀ d ∈ digits r.coefficient, d < 10 := fun _ => lt_ten_of_mem_digits
  have hratio : r.ratio = value (digits r.coefficient) * 10 ^ r.exponent := by
    rw [Numeral.ratio, hpositive, value_digits]
    rfl
  refine ⟨r, hjson, htext, ?_, ?_⟩
  · rw [encodeFloat_eq hf hz, decimalText_eq _ hl hd, value_digits, hshortest]
  · rw [hratio]
    exact spellsNumber_decimalText _ hl hd _

theorem encodeFloat_keeps_value_of_fraction :
    (Leads [1, 2, 0, 0] ∧ (∀ d ∈ [1, 2, 0, 0], d < 10) ∧
      SpellsNumber (lit "-1.2") (withSign true (value [1, 2, 0, 0] * 10 ^ (-3 : Int)))) ∧
    ((⟨0x4008000000000000⟩ : Binary64).isFinite = true ∧ (⟨0x4008000000000000⟩ : Binary64).isZero = false ∧
      ∃ t, encodeFloat ⟨0x4008000000000000⟩ = .ok t ∧ ∃ q, SpellsNumber t q) := by
  have hl : Leads [1, 2, 0, 0] := ⟨1, [2, 0, 0], rfl, by decide⟩
  have hf : (⟨0x4008000000000000⟩ : Binary64).isFinite = true := by decide
  have hz : (⟨0x4008000000000000⟩ : Binary64).isZero = false := by decide
  have htext : decimalText true [1, 2, 0, 0] (-3) = lit "-1.2" := by decide
  have hspells := encodeFloat_keeps_value.1 true [1, 2, 0, 0] (-3) hl (by decide)
  obtain ⟨r, -, -, ht, hs⟩ := encodeFloat_keeps_value.2 _ hf hz
  exact ⟨⟨hl, by decide, htext ▸ hspells⟩, hf, hz, _, ht, _, hs⟩

end Canonical

end AuditTrail
