import AuditTrail.Proofs.Canonical.Spelling
import AuditTrail.Proofs.Decimal.ShortestDigits
import AuditTrail.Value.Json

/-!
# Reading canonical numbers

The JSON reader takes a number up to where the text cannot continue it. A canonical number is read as
the number that it spells: its layout decides whether that is an integer, and where the point stands does
not change the digits that are read (`readNumber_layout`).
-/

namespace AuditTrail.Json

open Decimal

/-- The text does not begin with what continues a number. -/
def EndsNumber (t : Text) : Prop :=
  ∀ c ∈ t.head?, c.digit? = none ∧ c.val ≠ 0x2E ∧ c.val ≠ 0x65 ∧ c.val ≠ 0x45

variable {t : Text} {whole places ds : List Nat}

private theorem readFraction_of_head (h : ∀ c ∈ t.head?, c.val ≠ 0x2E) : readFraction t = (none, t) := by
  cases t with
  | nil => rfl
  | cons c t => rw [readFraction, if_neg (h c rfl)]

private theorem readFraction_of_ends (h : EndsNumber t) : readFraction t = (none, t) :=
  readFraction_of_head fun c hc => (h c hc).2.1

private theorem readExponent_of_ends (h : EndsNumber t) : readExponent t = (none, t) := by
  cases t with
  | nil => rfl
  | cons c t =>
    obtain ⟨-, -, he, hE⟩ := h c rfl
    unfold readExponent
    dsimp only
    rw [if_neg (by omega)]

private theorem digit?_of_ends (h : EndsNumber t) : ∀ c ∈ t.head?, c.digit? = none := fun c hc => (h c hc).1

private theorem readWhole_textOfDigits (hw : whole = [0] ∨ Leads whole) (hd : ∀ d ∈ whole, d < 10)
    (ht : ∀ c ∈ t.head?, c.digit? = none) : readWhole (textOfDigits whole ++ t) = some (whole, t) := by
  rw [readWhole, spanDigits_textOfDigits hd ht]
  rcases hw with rfl | ⟨a, rest, rfl, ha⟩
  · rfl
  · cases a with
    | zero => exact absurd rfl ha
    | succ a => rfl

private theorem readFraction_point (hp : places ≠ []) (hd : ∀ d ∈ places, d < 10)
    (ht : ∀ c ∈ t.head?, c.digit? = none) :
    readFraction (lit "." ++ (textOfDigits places ++ t)) = (some places, t) := by
  have hl : lit "." = [CodePoint.ofChar '.'] := rfl
  have hv : (CodePoint.ofChar '.').val = 0x2E := rfl
  have hs := spanDigits_textOfDigits hd ht
  cases places with
  | nil => exact absurd rfl hp
  | cons a rest => rw [hl, List.singleton_append, readFraction, if_pos hv, hs]

private theorem readExponent_mark (n : Int) (hn : ds ≠ []) (hd : ∀ d ∈ ds, d < 10) (hv : value ds = n.natAbs)
    (ht : ∀ c ∈ t.head?, c.digit? = none) :
    readExponent (lit "e" ++ (lit (if n < 0 then "-" else "+") ++ (textOfDigits ds ++ t))) = (some n, t) := by
  have he : lit "e" = [CodePoint.ofChar 'e'] := rfl
  have hmark : (CodePoint.ofChar 'e').val = 0x65 ∨ (CodePoint.ofChar 'e').val = 0x45 := .inl rfl
  have hs := spanDigits_textOfDigits hd ht
  rw [he, List.singleton_append]
  unfold readExponent
  dsimp only
  rw [if_pos hmark]
  cases ds with
  | nil => exact absurd rfl hn
  | cons a rest =>
    by_cases h : n < 0
    · have hm : lit "-" = [CodePoint.ofChar '-'] := rfl
      have hminus : (CodePoint.ofChar '-').val = 0x2D := rfl
      have hi : -((n.natAbs : Nat) : Int) = n := by omega
      rw [if_pos h, hm, List.singleton_append]
      simp only [hminus, if_true, hs, hv, hi]
    · have hp : lit "+" = [CodePoint.ofChar '+'] := rfl
      have hplus : (CodePoint.ofChar '+').val = 0x2B := rfl
      have hi : ((n.natAbs : Nat) : Int) = n := by omega
      rw [if_neg h, hp, List.singleton_append]
      simp [hplus, hs, hv, hi]

theorem readNumber_whole (negative : Bool) (hw : whole = [0] ∨ Leads whole) (hd : ∀ d ∈ whole, d < 10)
    (hl : whole.length ≤ digitLimit) (ht : EndsNumber t) :
    readNumber negative (textOfDigits whole ++ t) =
      .ok (.int (if negative then -(value whole : Int) else value whole), t) := by
  rw [readNumber, readWhole_textOfDigits hw hd (digit?_of_ends ht)]
  dsimp only
  rw [readFraction_of_ends ht]
  dsimp only
  rw [readExponent_of_ends ht]
  dsimp only
  rw [if_pos hl]

private theorem readNumber_places (negative : Bool) (hw : whole = [0] ∨ Leads whole) (hd : ∀ d ∈ whole, d < 10)
    (hp : places ≠ []) (hd' : ∀ d ∈ places, d < 10) (ht : EndsNumber t) :
    readNumber negative (textOfDigits whole ++ (lit "." ++ (textOfDigits places ++ t))) =
      .ok (.float (Binary64.ofDecimal negative (value (whole ++ places)) (0 - places.length)), t) := by
  have hpoint : ∀ c ∈ (lit "." ++ (textOfDigits places ++ t)).head?, c.digit? = none := by
    intro c hc
    obtain rfl : CodePoint.ofChar '.' = c := Option.some.inj hc
    rfl
  rw [readNumber, readWhole_textOfDigits hw hd hpoint]
  dsimp only
  rw [readFraction_point hp hd' (digit?_of_ends ht)]
  dsimp only
  rw [readExponent_of_ends ht]
  rfl

private theorem readNumber_scientific (negative : Bool) {d : Decimal.Pointed} (hl : Leads d.digits)
    (hd : ∀ n ∈ d.digits, n < 10) (ht : EndsNumber t) :
    readNumber negative (d.scientific canonicalStyle ++ t) =
      .ok (.float (Binary64.ofDecimal negative (value d.digits) (d.point - d.digits.length)), t) := by
  obtain ⟨digits, point⟩ := d
  obtain ⟨a, rest, rfl, ha⟩ := hl
  have hwhole : ∀ n ∈ [a], n < 10 := fun n hn => hd n (by rw [List.mem_singleton.mp hn]; exact List.mem_cons_self)
  have hplaces : ∀ n ∈ rest, n < 10 := fun n hn => hd n (List.mem_cons_of_mem a hn)
  obtain ⟨tail, htail⟩ : ∃ tail, tail = lit "e" ++ (lit (if point - 1 < 0 then "-" else "+") ++
    (textOfDigits (paddedDigits 1 (point - 1).natAbs) ++ t)) := ⟨_, rfl⟩
  have hexp : readExponent tail = (some (point - 1), t) := by
    rw [htail]
    exact readExponent_mark (point - 1) (by simp [paddedDigits, digits_ne_nil])
      (fun _ => lt_ten_of_mem_paddedDigits) (value_paddedDigits 1 _) (digit?_of_ends ht)
  have hmark : ∀ c ∈ tail.head?, c.digit? = none ∧ c.val ≠ 0x2E := by
    intro c hc
    rw [htail] at hc
    obtain rfl : CodePoint.ofChar 'e' = c := Option.some.inj hc
    decide
  cases rest with
  | nil =>
    have hs : Decimal.Pointed.scientific canonicalStyle ⟨[a], point⟩ ++ t = textOfDigits [a] ++ tail := by
      simp only [Decimal.Pointed.scientific, canonicalStyle, padded_eq, htail, List.append_assoc]
    rw [hs, readNumber, readWhole_textOfDigits (.inr ⟨a, [], rfl, ha⟩) hwhole fun c hc => (hmark c hc).1]
    dsimp only
    rw [readFraction_of_head fun c hc => (hmark c hc).2]
    dsimp only
    rw [hexp]
    simp
  | cons b rest =>
    have hpoint : ∀ c ∈ (lit "." ++ (textOfDigits (b :: rest) ++ tail)).head?, c.digit? = none := by
      intro c hc
      obtain rfl : CodePoint.ofChar '.' = c := Option.some.inj hc
      rfl
    have hs : Decimal.Pointed.scientific canonicalStyle ⟨a :: b :: rest, point⟩ ++ t =
        textOfDigits [a] ++ (lit "." ++ (textOfDigits (b :: rest) ++ tail)) := by
      simp only [Decimal.Pointed.scientific, canonicalStyle, padded_eq, htail, List.append_assoc]
    rw [hs, readNumber, readWhole_textOfDigits (.inr ⟨a, [], rfl, ha⟩) hwhole hpoint]
    dsimp only
    rw [readFraction_point (List.cons_ne_nil b rest) hplaces fun c hc => (hmark c hc).1]
    dsimp only
    rw [hexp]
    simp only [Option.getD_some, List.length_cons, List.singleton_append, Except.ok.injEq, Prod.mk.injEq,
      Value.float.injEq, and_true]
    congr 1
    omega

private theorem lt_ten_of_mem_zeros {k n : Nat} (h : n ∈ List.replicate k 0) : n < 10 := by
  rw [List.eq_of_mem_replicate h]
  decide

private theorem readNumber_small (negative : Bool) {d : Decimal.Pointed} (hl : Leads d.digits)
    (hd : ∀ n ∈ d.digits, n < 10) (h0 : d.point ≤ 0) (ht : EndsNumber t) :
    readNumber negative (d.plain canonicalStyle ++ t) =
      .ok (.float (Binary64.ofDecimal negative (value d.digits) (d.point - d.digits.length)), t) := by
  have hs : lit "0." = textOfDigits [0] ++ lit "." := rfl
  have hne : List.replicate (-d.point).toNat 0 ++ d.digits ≠ [] := by
    obtain ⟨a, rest, he, -⟩ := hl
    rw [he]
    exact List.append_ne_nil_of_right_ne_nil _ (List.cons_ne_nil a rest)
  have hten : ∀ n ∈ List.replicate (-d.point).toNat 0 ++ d.digits, n < 10 := by
    intro n hn
    rcases List.mem_append.mp hn with hm | hm
    · exact lt_ten_of_mem_zeros hm
    · exact hd n hm
  have hv : value ([0] ++ (List.replicate (-d.point).toNat 0 ++ d.digits)) = value d.digits :=
    (value_zeros_append 1 _).trans (value_zeros_append _ d.digits)
  have hr : readNumber negative (textOfDigits [0] ++ (lit "." ++
      (textOfDigits (List.replicate (-d.point).toNat 0 ++ d.digits) ++ t))) = _ :=
    readNumber_places negative (.inl rfl) (by decide) hne hten ht
  rw [Decimal.Pointed.plain, if_pos h0, hs, ← textOfDigits_zeros, List.append_assoc, List.append_assoc,
    List.append_assoc, ← List.append_assoc (textOfDigits (List.replicate _ 0)), ← textOfDigits_append, hr, hv]
  congr 4
  rw [List.length_append, List.length_replicate]
  omega

private theorem readNumber_integer (negative : Bool) {d : Decimal.Pointed} (hl : Leads d.digits)
    (hd : ∀ n ∈ d.digits, n < 10) (hk : (d.digits.length : Int) ≤ d.point)
    (hh : d.point ≤ canonicalStyle.high) (ht : EndsNumber t) :
    readNumber negative (d.plain canonicalStyle ++ t) =
      .ok (.int (if negative then -((value d.digits * 10 ^ (d.point - d.digits.length).toNat : Nat) : Int)
        else (value d.digits * 10 ^ (d.point - d.digits.length).toNat : Nat)), t) := by
  have hlen := hl.length_pos
  obtain ⟨k, hk'⟩ : ∃ k : Nat, d.point = d.digits.length + k := ⟨(d.point - d.digits.length).toNat, by omega⟩
  have hpad : (d.point.toNat - d.digits.length) = k := by omega
  have hpow : (d.point - d.digits.length).toNat = k := by omega
  have hw : Leads (d.digits ++ List.replicate k 0) := by
    obtain ⟨a, rest, he, ha⟩ := hl
    exact ⟨a, rest ++ List.replicate k 0, by rw [he, List.cons_append], ha⟩
  have hten : ∀ n ∈ d.digits ++ List.replicate k 0, n < 10 := by
    intro n hn
    rcases List.mem_append.mp hn with hm | hm
    · exact hd n hm
    · exact lt_ten_of_mem_zeros hm
  have hle : (d.digits ++ List.replicate k 0).length ≤ digitLimit := by
    simp only [canonicalStyle] at hh
    rw [List.length_append, List.length_replicate, digitLimit]
    omega
  have hr := readNumber_whole negative (.inr hw) hten hle ht
  rw [value_append_zeros] at hr
  rw [Decimal.Pointed.plain, if_neg (by omega), if_pos hk, ← textOfDigits_zeros, hpad, hpow, ← hr, textOfDigits_append]
  simp only [canonicalStyle, Bool.false_eq_true, if_false, List.append_nil]

private theorem readNumber_split (negative : Bool) {d : Decimal.Pointed} (hl : Leads d.digits)
    (hd : ∀ n ∈ d.digits, n < 10) (h0 : 0 < d.point) (hk : d.point < d.digits.length) (ht : EndsNumber t) :
    readNumber negative (d.plain canonicalStyle ++ t) =
      .ok (.float (Binary64.ofDecimal negative (value d.digits) (d.point - d.digits.length)), t) := by
  obtain ⟨n, hn⟩ : ∃ n : Nat, d.point = n := ⟨d.point.toNat, by omega⟩
  have htn : d.point.toNat = n := by omega
  obtain ⟨m, rfl⟩ : ∃ m, n = m + 1 := ⟨n - 1, by omega⟩
  have hw : Leads (d.digits.take (m + 1)) := by
    obtain ⟨a, rest, he, ha⟩ := hl
    exact ⟨a, rest.take m, by rw [he, List.take_succ_cons], ha⟩
  have hp : d.digits.drop (m + 1) ≠ [] := by
    intro he
    rw [List.drop_eq_nil_iff] at he
    omega
  have hr := readNumber_places negative (.inr hw) (fun n hn => hd n (List.mem_of_mem_take hn)) hp
    (fun n hn => hd n (List.mem_of_mem_drop hn)) ht
  rw [List.take_append_drop] at hr
  rw [Decimal.Pointed.plain, if_neg (by omega), if_neg (by omega), htn, List.append_assoc, List.append_assoc, hr]
  congr 4
  rw [List.length_drop]
  omega

/-- A number is read as what its digits and its point spell, whatever its layout. -/
theorem readNumber_layout (negative : Bool) {d : Decimal.Pointed} (hl : Leads d.digits)
    (hd : ∀ n ∈ d.digits, n < 10) (ht : EndsNumber t) :
    readNumber negative (d.layout canonicalStyle ++ t) = .ok (Canonical.spelledNumber negative d, t) := by
  have hlen := hl.length_pos
  rw [Decimal.Pointed.layout, Canonical.spelledNumber]
  by_cases hs : canonicalStyle.low < d.point ∧ d.point ≤ canonicalStyle.high
  · rw [if_pos hs]
    by_cases hk : (d.digits.length : Int) ≤ d.point
    · rw [if_pos ⟨hk, hs.2⟩]
      exact readNumber_integer negative hl hd hk hs.2 ht
    · rw [if_neg (by omega)]
      by_cases h0 : d.point ≤ 0
      · exact readNumber_small negative hl hd h0 ht
      · exact readNumber_split negative hl hd (by omega) (by omega) ht
  · have hn : ¬((d.digits.length : Int) ≤ d.point ∧ d.point ≤ canonicalStyle.high) := by
      simp only [canonicalStyle] at hs ⊢
      omega
    rw [if_neg hs, if_neg hn]
    exact readNumber_scientific negative hl hd ht

end AuditTrail.Json
