import AuditTrail.Proofs.Digest.HexDigits
import AuditTrail.Proofs.Json.Numbers

/-!
# Reading canonical text

Canonical text is JSON: it is read as the value that it spells (`Canonical.reread`), and the reader stops
where the text ends (`readsAs_of_encode`).
-/

namespace AuditTrail.Json

open Canonical

variable {t rest : Text} {v : Value}

theorem skip_cons {c : CodePoint} (h : isSpace c = false) (u : Text) : skip (c :: u) = c :: u := by
  rw [skip, List.dropWhile_cons, if_neg (by rw [h]; decide)]

/-- A text is read as a value, and the reader stops where the text ends. -/
structure ReadsAs (t : Text) (v : Value) : Prop where
  opens : ∃ c u, t = c :: u ∧ isSpace c = false ∧ c.val ≠ 0x5D
  read : ∀ fuel rest, t.length ≤ fuel → EndsNumber rest → readValue (fuel + 1) (t ++ rest) = .ok (v, rest)

private theorem ReadsAs.skip_append (h : ReadsAs t v) (rest : Text) : skip (t ++ rest) = t ++ rest := by
  obtain ⟨c, u, rfl, hc, -⟩ := h.opens
  exact skip_cons hc (u ++ rest)

private theorem readChars_short {e p : CodePoint} (he : e.val ≠ 0x75) (hp : shortEscape? e = some p) (paired : Bool)
    (t done : Text) : readChars (CodePoint.ofChar '\\' :: e :: t) paired done = readChars t false (p :: done) := by
  have hv : (CodePoint.ofChar '\\').val = 0x5C := rfl
  rw [readChars.eq_def]
  dsimp only
  rw [if_neg (by rw [hv]; decide), if_pos hv, if_neg he, hp]

private theorem hexDigit?_ofHexDigit {d : Nat} (h : d < 16) : (CodePoint.ofHexDigit d).hexDigit? = some d := by
  have hv := Text.val_ofHexDigit h
  rw [CodePoint.hexDigit?, hv]
  by_cases hd : d < 10
  · rw [if_pos hd, if_pos (by omega), Nat.add_sub_cancel_left]
  · rw [if_neg hd, if_neg (by omega), if_pos (by omega), Nat.add_sub_cancel_left]

private theorem readChars_unit {c : CodePoint} (hc : c.val < 0x20) (paired : Bool) (t done : Text) :
    readChars (lit "\\u" ++ Text.hex 4 c.val ++ t) paired done = readChars t false (c :: done) := by
  have hu : lit "\\u" = [CodePoint.ofChar '\\', CodePoint.ofChar 'u'] := rfl
  have hb : (CodePoint.ofChar '\\').val = 0x5C := rfl
  have hv : (CodePoint.ofChar 'u').val = 0x75 := rfl
  have hd : ∀ n, (CodePoint.ofHexDigit (n % 16)).hexDigit? = some (n % 16) := fun n =>
    hexDigit?_ofHexDigit (Nat.mod_lt n (by decide))
  have hn : (((c.val / 16 / 16 / 16 % 16) * 16 + c.val / 16 / 16 % 16) * 16 + c.val / 16 % 16) * 16 + c.val % 16 =
      c.val := by omega
  have hl : Octets.isLow c.val = false := by simp [Octets.isLow]; omega
  have hh : Octets.isHigh c.val = false := by simp [Octets.isHigh]; omega
  have hp : CodePoint.ofNat c.val = c := CodePoint.eq_of_val_eq (CodePoint.ofNat_val c.isLt)
  simp only [hu, Text.hex, List.nil_append, List.cons_append]
  rw [readChars.eq_def]
  dsimp only
  rw [if_neg (by rw [hb]; decide), if_pos hb, if_pos hv]
  simp only [hexUnit?, hd, bind, Option.bind, pure, hn, pushUnit, hl, hh, Bool.and_false, hp]

private theorem readChars_escape (c : CodePoint) (paired : Bool) (t done : Text) :
    readChars (escape c ++ t) paired done = readChars t false (c :: done) := by
  have short : ∀ (e : Char) (n : Nat), c.val = n → (CodePoint.ofChar e).val ≠ 0x75 →
      (shortEscape? (CodePoint.ofChar e)).map CodePoint.val = some n →
      readChars (CodePoint.ofChar '\\' :: CodePoint.ofChar e :: t) paired done = readChars t false (c :: done) := by
    intro e n hc he hs
    obtain ⟨p, hp, hv⟩ := Option.map_eq_some_iff.mp hs
    rw [readChars_short he hp, CodePoint.eq_of_val_eq (hv.trans hc.symm)]
  rw [escape]
  split
  · exact short '"' _ ‹_› (by decide) (by decide)
  · exact short '\\' _ ‹_› (by decide) (by decide)
  · exact short 'n' _ ‹_› (by decide) (by decide)
  · exact short 'r' _ ‹_› (by decide) (by decide)
  · exact short 't' _ ‹_› (by decide) (by decide)
  · exact short 'b' _ ‹_› (by decide) (by decide)
  · exact short 'f' _ ‹_› (by decide) (by decide)
  · rename_i hq hb _ _ _ _ _
    split
    · exact readChars_unit ‹_› paired t done
    · rename_i hn
      rw [List.singleton_append, readChars.eq_def]
      dsimp only
      rw [if_neg hq, if_neg hb, if_neg hn]

private theorem readChars_quoted (s rest : Text) :
    readChars (s.flatMap escape ++ (lit "\"" ++ rest)) false [] = some (s, rest) := by
  have h : ∀ (u done : Text), readChars (u.flatMap escape ++ (lit "\"" ++ rest)) false done =
      some (done.reverse ++ u, rest) := by
    intro u
    induction u with
    | nil =>
      intro done
      have hl : lit "\"" = [CodePoint.ofChar '"'] := rfl
      have hv : (CodePoint.ofChar '"').val = 0x22 := rfl
      rw [List.append_nil, List.flatMap_nil, List.nil_append, hl, List.singleton_append, readChars.eq_def]
      dsimp only
      rw [if_pos hv]
    | cons c u ih =>
      intro done
      rw [List.flatMap_cons, List.append_assoc, readChars_escape, ih, List.reverse_cons, List.append_assoc,
        List.singleton_append]
  exact h s []

private theorem quote_append (s rest : Text) :
    quote s ++ rest = CodePoint.ofChar '"' :: (s.flatMap escape ++ (lit "\"" ++ rest)) := by
  rw [quote, List.append_assoc, List.append_assoc]
  rfl

theorem readsAs_quote (s : Text) : ReadsAs (quote s) (.text s) where
  opens := ⟨CodePoint.ofChar '"', s.flatMap escape ++ lit "\"", by rw [quote, List.append_assoc]; rfl, by decide,
    by decide⟩
  read fuel rest _ _ := by
    have hv : (CodePoint.ofChar '"').val = 0x22 := rfl
    rw [quote_append, readValue, if_pos hv, readChars_quoted]

private theorem readValue_scalar {c : CodePoint} {u : Text} (h : c.val ≠ 0x22 ∧ c.val ≠ 0x5B ∧ c.val ≠ 0x7B)
    (fuel : Nat) : readValue (fuel + 1) (c :: u) = readScalar (c :: u) := by
  rw [readValue, if_neg h.1, if_neg h.2.1, if_neg h.2.2]

private theorem dropFront?_of_head {a b : CodePoint} (h : a ≠ b) (s t : Text) :
    Text.dropFront? (a :: s) (b :: t) = none := by
  rw [Text.dropFront?, if_neg h]

private theorem readScalar_of_word {u : Text} {found : Value × Text}
    (h : (words.findSome? fun w => (Text.dropFront? w.1 u).map fun rest => (w.2, rest)) = some found) :
    readScalar u = .ok found := by
  rw [readScalar.eq_def, h]

private theorem readScalar_null (rest : Text) : readScalar (lit "null" ++ rest) = .ok (.null, rest) := by
  apply readScalar_of_word
  rw [words, List.findSome?_cons, Text.dropFront?_append]
  rfl

private theorem readScalar_true (rest : Text) : readScalar (lit "true" ++ rest) = .ok (.bool true, rest) := by
  have hn : Text.dropFront? (lit "null") (lit "true" ++ rest) = none := dropFront?_of_head (by decide) _ _
  apply readScalar_of_word
  rw [words, List.findSome?_cons, hn, List.findSome?_cons, Text.dropFront?_append]
  rfl

private theorem readScalar_false (rest : Text) : readScalar (lit "false" ++ rest) = .ok (.bool false, rest) := by
  have hn : Text.dropFront? (lit "null") (lit "false" ++ rest) = none := dropFront?_of_head (by decide) _ _
  have ht : Text.dropFront? (lit "true") (lit "false" ++ rest) = none := dropFront?_of_head (by decide) _ _
  apply readScalar_of_word
  rw [words, List.findSome?_cons, hn, List.findSome?_cons, ht, List.findSome?_cons, Text.dropFront?_append]
  rfl

private theorem readsAs_null : ReadsAs (lit "null") .null where
  opens := ⟨CodePoint.ofChar 'n', lit "ull", rfl, by decide, by decide⟩
  read fuel rest _ _ := (readValue_scalar (by decide) fuel).trans (readScalar_null rest)

private theorem readsAs_bool (b : Bool) : ReadsAs (lit (if b then "true" else "false")) (.bool b) := by
  cases b with
  | true =>
    exact ⟨⟨CodePoint.ofChar 't', lit "rue", rfl, by decide, by decide⟩, fun fuel rest _ _ =>
      (readValue_scalar (by decide) fuel).trans (readScalar_true rest)⟩
  | false =>
    exact ⟨⟨CodePoint.ofChar 'f', lit "alse", rfl, by decide, by decide⟩, fun fuel rest _ _ =>
      (readValue_scalar (by decide) fuel).trans (readScalar_false rest)⟩

private theorem dropFront?_words {w : Text × Value} (hw : w ∈ words) {c : CodePoint} (hc : c.digit?.isSome = true)
    (u : Text) :
    Text.dropFront? w.1 (c :: u) = none ∧ Text.dropFront? w.1 (CodePoint.ofChar '-' :: c :: u) = none := by
  have hne : ∀ d : Char, (CodePoint.ofChar d).digit? = none → CodePoint.ofChar d ≠ c := by
    intro d hd he
    rw [← he, hd] at hc
    exact absurd hc (by decide)
  simp only [words, List.mem_cons, List.not_mem_nil, or_false] at hw
  rcases hw with rfl | rfl | rfl | rfl | rfl | rfl
  · exact ⟨dropFront?_of_head (hne 'n' rfl) _ _, dropFront?_of_head (by decide) _ _⟩
  · exact ⟨dropFront?_of_head (hne 't' rfl) _ _, dropFront?_of_head (by decide) _ _⟩
  · exact ⟨dropFront?_of_head (hne 'f' rfl) _ _, dropFront?_of_head (by decide) _ _⟩
  · exact ⟨dropFront?_of_head (hne 'N' rfl) _ _, dropFront?_of_head (by decide) _ _⟩
  · exact ⟨dropFront?_of_head (hne 'I' rfl) _ _, dropFront?_of_head (by decide) _ _⟩
  · refine ⟨dropFront?_of_head (hne '-' rfl) _ _, ?_⟩
    have hi := dropFront?_of_head (hne 'I' rfl) (lit "nfinity") u
    have hl : lit "-Infinity" = CodePoint.ofChar '-' :: CodePoint.ofChar 'I' :: lit "nfinity" := rfl
    dsimp only
    rw [hl, Text.dropFront?, if_pos rfl, hi]

private theorem readScalar_number (negative : Bool) {u : Text} (hu : ∃ c s, u = c :: s ∧ c.digit?.isSome = true) :
    readScalar ((if negative then lit "-" else []) ++ u) = readNumber negative u := by
  obtain ⟨c, s, rfl, hc⟩ := hu
  have hnone : ∀ t : Text, (∀ w ∈ words, Text.dropFront? w.1 t = none) →
      (words.findSome? fun w => (Text.dropFront? w.1 t).map fun rest => (w.2, rest)) = none := by
    intro t h
    rw [List.findSome?_eq_none_iff]
    intro w hw
    rw [h w hw, Option.map_none]
  cases negative with
  | true =>
    have hl : lit "-" = [CodePoint.ofChar '-'] := rfl
    have hv : (CodePoint.ofChar '-').val = 0x2D := rfl
    rw [if_pos rfl, hl, List.singleton_append, readScalar.eq_def, hnone _ fun w hw => (dropFront?_words hw hc s).2]
    dsimp only
    rw [if_pos hv]
  | false =>
    have hv : ¬c.val = 0x2D := by
      intro h
      rw [CodePoint.digit?, h] at hc
      exact absurd hc (by decide)
    rw [if_neg (by decide), List.nil_append, readScalar.eq_def, hnone _ fun w hw => (dropFront?_words hw hc s).1]
    dsimp only
    rw [if_neg hv]

private theorem val_of_digit? {c : CodePoint} (h : c.digit?.isSome = true) : 48 ≤ c.val ∧ c.val ≤ 57 := by
  rw [CodePoint.digit?] at h
  split at h
  · assumption
  · exact absurd h (by decide)

private theorem readsAs_number (negative : Bool) {u : Text} (hu : ∃ c s, u = c :: s ∧ c.digit?.isSome = true)
    (h : ∀ rest, EndsNumber rest → readNumber negative (u ++ rest) = .ok (v, rest)) :
    ReadsAs ((if negative then lit "-" else []) ++ u) v := by
  obtain ⟨c, s, rfl, hc⟩ := hu
  have hv := val_of_digit? hc
  have hs : isSpace c = false := by
    simp only [isSpace, Bool.or_eq_false_iff, beq_eq_false_iff_ne]
    omega
  have hread : ∀ rest, EndsNumber rest →
      readScalar ((if negative then lit "-" else []) ++ (c :: s ++ rest)) = .ok (v, rest) := by
    intro rest hr
    exact (readScalar_number negative ⟨c, s ++ rest, rfl, hc⟩).trans (h rest hr)
  cases negative with
  | true =>
    refine ⟨⟨CodePoint.ofChar '-', c :: s, rfl, by decide, by decide⟩, fun fuel rest _ hr => ?_⟩
    exact (readValue_scalar (by decide) fuel).trans (hread rest hr)
  | false =>
    refine ⟨⟨c, s, rfl, hs, by omega⟩, fun fuel rest _ hr => ?_⟩
    exact (readValue_scalar (by omega) fuel).trans (hread rest hr)

private theorem exists_digit_of_ne_nil {ds : List Nat} (hne : ds ≠ []) (hd : ∀ d ∈ ds, d < 10) (u : Text) :
    ∃ c s, Decimal.textOfDigits ds ++ u = c :: s ∧ c.digit?.isSome = true := by
  cases ds with
  | nil => exact absurd rfl hne
  | cons a rest =>
    refine ⟨CodePoint.ofDigit a, Decimal.textOfDigits rest ++ u, rfl, ?_⟩
    rw [CodePoint.digit?_ofDigit (hd a List.mem_cons_self)]
    rfl

private theorem readsAs_int {i : Int} (h : Decimal.isOversized i = false) : ReadsAs (Decimal.ofInt i) (.int i) := by
  have hlen : (Decimal.digits i.natAbs).length ≤ Decimal.digitLimit := by
    apply Decimal.length_digits_le (by decide)
    exact Decimal.isOversized_eq_false_iff.mp h
  have hw : Decimal.digits i.natAbs = [0] ∨ Decimal.Leads (Decimal.digits i.natAbs) := by
    by_cases hz : i.natAbs = 0
    · rw [hz]
      exact .inl (Decimal.digits_of_lt (by decide))
    · exact .inr (Decimal.leads_digits hz)
  have ht : Decimal.ofInt i = (if decide (i < 0) then lit "-" else []) ++ Decimal.ofNat i.natAbs := by
    rw [Decimal.ofInt]
    by_cases hi : i < 0
    · simp only [hi, if_true, decide_true]
      rfl
    · simp only [hi, if_false, decide_false, Bool.false_eq_true, List.nil_append]
  have hv : (if decide (i < 0) = true then -((i.natAbs : Nat) : Int) else i.natAbs) = i := by
    by_cases hi : i < 0
    · rw [if_pos (decide_eq_true hi)]
      omega
    · rw [if_neg (by simp [hi])]
      omega
  have hd : ∀ d ∈ Decimal.digits i.natAbs, d < 10 := fun _ => Decimal.lt_ten_of_mem_digits
  have hu := exists_digit_of_ne_nil (Decimal.digits_ne_nil i.natAbs) hd []
  rw [List.append_nil] at hu
  rw [ht]
  apply readsAs_number _ hu
  intro rest hr
  have hn := readNumber_whole (decide (i < 0)) hw hd hlen hr
  rw [Decimal.value_digits, hv] at hn
  exact hn

private theorem exists_digit_of_layout {d : Decimal.Pointed} (hl : Decimal.Leads d.digits)
    (hd : ∀ n ∈ d.digits, n < 10) :
    ∃ c s, d.layout canonicalStyle = c :: s ∧ c.digit?.isSome = true := by
  obtain ⟨digits, point⟩ := d
  obtain ⟨a, rest, rfl, -⟩ := hl
  have hne : a :: rest ≠ [] := List.cons_ne_nil a rest
  have ha : ∀ u, ∃ c s, Decimal.textOfDigits [a] ++ u = c :: s ∧ c.digit?.isSome = true :=
    exists_digit_of_ne_nil (List.cons_ne_nil a []) fun n hn => hd n (by simp_all)
  rw [Decimal.Pointed.layout]
  split
  · rw [Decimal.Pointed.plain]
    dsimp only
    split
    · exact ⟨CodePoint.ofChar '0', _, rfl, rfl⟩
    · split
      · rw [List.append_assoc]
        exact exists_digit_of_ne_nil hne hd _
      · obtain ⟨n, hn⟩ : ∃ n, point.toNat = n + 1 := ⟨point.toNat - 1, by omega⟩
        rw [hn, List.take_succ_cons, List.append_assoc]
        exact exists_digit_of_ne_nil (List.cons_ne_nil a _)
          (fun m hm => hd m (List.mem_of_mem_take (i := n + 1) hm)) _
  · rw [Decimal.Pointed.scientific]
    dsimp only
    cases rest with
    | nil =>
      dsimp only
      rw [List.append_assoc, List.append_assoc]
      exact ha _
    | cons b rest =>
      dsimp only
      simp only [List.append_assoc]
      exact ha _

private theorem readsAs_float {x : Binary64} (hz : x.isZero = false) : ReadsAs (floatText x) (rereadFloat x) := by
  have hl := Binary64.leads_shortest hz
  have hd : ∀ d ∈ x.shortest.digits, d < 10 := fun _ => Binary64.lt_ten_of_mem_shortest
  have hr : rereadFloat x = spelledNumber x.isNegative x.shortest := by
    rw [rereadFloat, hz, if_neg (by decide)]
  rw [floatText, hr]
  exact readsAs_number _ (exists_digit_of_layout hl hd) fun rest he => readNumber_layout _ hl hd he

theorem endsNumber_cons {c : CodePoint} {u : Text}
    (h : c.digit? = none ∧ c.val ≠ 0x2E ∧ c.val ≠ 0x65 ∧ c.val ≠ 0x45) : EndsNumber (c :: u) := by
  intro d hd
  obtain rfl : c = d := Option.some.inj hd
  exact h

private theorem join_cons (w : Text) (ws : List Text) : ∃ u, Text.join (lit ",") (w :: ws) = w ++ u := by
  cases ws with
  | nil => exact ⟨[], (List.append_nil w).symm⟩
  | cons x ws => exact ⟨lit "," ++ Text.join (lit ",") (x :: ws), List.append_assoc _ _ _⟩

private theorem join_cons_cons (w x : Text) (ws : List Text) (u : Text) :
    Text.join (lit ",") (w :: x :: ws) ++ u = w ++ CodePoint.ofChar ',' :: (Text.join (lit ",") (x :: ws) ++ u) := by
  rw [Text.join, List.append_assoc, List.append_assoc]
  rfl

private theorem readItems_last (h : ReadsAs t v) {fuel : Nat} (hf : t.length ≤ fuel) (rest : Text) (done : List Value) :
    readItems (fuel + 2) (t ++ CodePoint.ofChar ']' :: rest) done = .ok (.list (done.reverse ++ [v]), rest) := by
  have hv : (CodePoint.ofChar ']').val = 0x5D := rfl
  rw [readItems, h.read fuel _ hf (endsNumber_cons (by decide))]
  dsimp only
  rw [skip_cons rfl]
  dsimp only
  rw [if_neg (by rw [hv]; decide), if_pos hv, List.reverse_cons]

private theorem readItems_comma (h : ReadsAs t v) {fuel : Nat} (hf : t.length ≤ fuel) {rest : Text}
    (hs : skip rest = rest) (done : List Value) :
    readItems (fuel + 2) (t ++ CodePoint.ofChar ',' :: rest) done = readItems (fuel + 1) rest (v :: done) := by
  have hv : (CodePoint.ofChar ',').val = 0x2C := rfl
  rw [readItems, h.read fuel _ hf (endsNumber_cons (by decide))]
  dsimp only
  rw [skip_cons rfl]
  dsimp only
  rw [if_pos hv, hs]

private theorem readItems_join (rest : Text) (ps : List (Text × Value)) :
    ∀ (p : Text × Value) (fuel : Nat) (done : List Value),
    (∀ q ∈ p :: ps, ReadsAs q.1 q.2) → (Text.join (lit ",") ((p :: ps).map Prod.fst)).length + 2 ≤ fuel →
    readItems fuel (Text.join (lit ",") ((p :: ps).map Prod.fst) ++ CodePoint.ofChar ']' :: rest) done =
      .ok (.list (done.reverse ++ (p :: ps).map Prod.snd), rest) := by
  induction ps with
  | nil =>
    intro p fuel done h hf
    obtain ⟨g, rfl⟩ : ∃ g, fuel = g + 2 := ⟨fuel - 2, by omega⟩
    exact readItems_last (h p List.mem_cons_self) (Nat.le_of_add_le_add_right hf) rest done
  | cons q ps ih =>
    intro p fuel done h hf
    obtain ⟨g, rfl⟩ : ∃ g, fuel = g + 2 := ⟨fuel - 2, by omega⟩
    have hq : ∀ r ∈ q :: ps, ReadsAs r.1 r.2 := fun r hr => h r (List.mem_cons_of_mem p hr)
    have hlen := congrArg List.length (join_cons_cons p.1 q.1 (ps.map Prod.fst) [])
    simp only [List.map_cons, List.append_nil, List.length_append, List.length_cons] at hf hlen
    have hskip : skip (Text.join (lit ",") (q.1 :: ps.map Prod.fst) ++ CodePoint.ofChar ']' :: rest) =
        Text.join (lit ",") (q.1 :: ps.map Prod.fst) ++ CodePoint.ofChar ']' :: rest := by
      obtain ⟨u, hu⟩ := join_cons q.1 (ps.map Prod.fst)
      rw [hu, List.append_assoc]
      exact (hq q List.mem_cons_self).skip_append _
    have hi := ih q (g + 1) (p.2 :: done) hq (by simp only [List.map_cons]; omega)
    simp only [List.map_cons] at hi ⊢
    rw [join_cons_cons, readItems_comma (h p List.mem_cons_self) (by omega) hskip, hi, List.reverse_cons,
      List.append_assoc, List.singleton_append]

private theorem bracketed_append (ts : List Text) (rest : Text) :
    bracketed ts ++ rest = CodePoint.ofChar '[' :: (Text.join (lit ",") ts ++ CodePoint.ofChar ']' :: rest) := by
  rw [bracketed, List.append_assoc, List.append_assoc]
  rfl

private theorem readsAs_list {ps : List (Text × Value)} (h : ∀ p ∈ ps, ReadsAs p.1 p.2) :
    ReadsAs (bracketed (ps.map Prod.fst)) (.list (ps.map Prod.snd)) where
  opens := by
    have hb := bracketed_append (ps.map Prod.fst) []
    rw [List.append_nil] at hb
    exact ⟨CodePoint.ofChar '[', _, hb, by decide, by decide⟩
  read fuel rest hf _ := by
    have hv : (CodePoint.ofChar '[').val = 0x5B := rfl
    rw [bracketed_append, readValue, if_neg (by rw [hv]; decide), if_pos hv]
    cases ps with
    | nil =>
      have hc : (CodePoint.ofChar ']').val = 0x5D := rfl
      rw [List.map_nil, Text.join, List.nil_append, skip_cons rfl]
      dsimp only
      rw [if_pos hc, List.map_nil]
    | cons p ps =>
      have hb := congrArg List.length (bracketed_append ((p :: ps).map Prod.fst) [])
      simp only [List.append_nil, List.length_cons, List.length_append, List.length_nil] at hb
      obtain ⟨u, hu⟩ := join_cons p.1 (ps.map Prod.fst)
      obtain ⟨c, s, hp, hs, hc⟩ := (h p List.mem_cons_self).opens
      have hj : Text.join (lit ",") ((p :: ps).map Prod.fst) ++ CodePoint.ofChar ']' :: rest =
          c :: (s ++ u ++ CodePoint.ofChar ']' :: rest) := by
        rw [List.map_cons, hu, hp]
        rfl
      have hi := readItems_join rest ps p fuel [] h (by omega)
      rw [hj] at hi ⊢
      rw [skip_cons hs]
      dsimp only
      rw [if_neg hc, hi, List.reverse_nil, List.nil_append]

private theorem readKey_quote (key : Text) {t rest : Text} (h : skip (t ++ rest) = t ++ rest) :
    readKey (fieldText key t ++ rest) = some (key, t ++ rest) := by
  have hv : (CodePoint.ofChar '"').val = 0x22 := rfl
  have hc : (CodePoint.ofChar ':').val = 0x3A := rfl
  have hl : lit ":" ++ (t ++ rest) = CodePoint.ofChar ':' :: (t ++ rest) := rfl
  rw [fieldText, List.append_assoc, List.append_assoc, quote_append, readKey, if_pos hv, readChars_quoted]
  dsimp only
  rw [hl, skip_cons rfl]
  dsimp only
  rw [if_pos hc, h]

private theorem readFields_last (key : Text) (h : ReadsAs t v) {fuel : Nat} (hf : t.length ≤ fuel) (rest : Text)
    (done : List (Value × Value)) :
    readFields (fuel + 2) (fieldText key t ++ CodePoint.ofChar '}' :: rest) done =
      .ok (Value.ofFields (done.reverse ++ [(.text key, v)]), rest) := by
  have hv : (CodePoint.ofChar '}').val = 0x7D := rfl
  rw [readFields, readKey_quote key (h.skip_append _)]
  dsimp only
  rw [h.read fuel _ hf (endsNumber_cons (by decide))]
  dsimp only
  rw [skip_cons rfl]
  dsimp only
  rw [if_neg (by rw [hv]; decide), if_pos hv, List.reverse_cons]

private theorem readFields_comma (key : Text) (h : ReadsAs t v) {fuel : Nat} (hf : t.length ≤ fuel) {rest : Text}
    (hs : skip rest = rest) (done : List (Value × Value)) :
    readFields (fuel + 2) (fieldText key t ++ CodePoint.ofChar ',' :: rest) done =
      readFields (fuel + 1) rest ((.text key, v) :: done) := by
  have hv : (CodePoint.ofChar ',').val = 0x2C := rfl
  rw [readFields, readKey_quote key (h.skip_append _)]
  dsimp only
  rw [h.read fuel _ hf (endsNumber_cons (by decide))]
  dsimp only
  rw [skip_cons rfl]
  dsimp only
  rw [if_pos hv, hs]

private theorem fieldText_append (key u rest : Text) : ∃ s, fieldText key u ++ rest = CodePoint.ofChar '"' :: s := by
  rw [fieldText, List.append_assoc, List.append_assoc, quote_append]
  exact ⟨_, rfl⟩

private theorem length_le_fieldText (key u : Text) : u.length ≤ (fieldText key u).length := by
  rw [fieldText, List.length_append]
  omega

private theorem readFields_join (rest : Text) (fs : List (Text × Text × Value)) :
    ∀ (f : Text × Text × Value) (fuel : Nat) (done : List (Value × Value)),
    (∀ g ∈ f :: fs, ReadsAs g.2.1 g.2.2) →
    (Text.join (lit ",") ((f :: fs).map fun g => fieldText g.1 g.2.1)).length + 2 ≤ fuel →
    readFields fuel (Text.join (lit ",") ((f :: fs).map fun g => fieldText g.1 g.2.1) ++ CodePoint.ofChar '}' :: rest)
      done = .ok (Value.ofFields (done.reverse ++ (f :: fs).map fun g => (.text g.1, g.2.2)), rest) := by
  induction fs with
  | nil =>
    intro f fuel done h hf
    obtain ⟨g, rfl⟩ : ∃ g, fuel = g + 2 := ⟨fuel - 2, by omega⟩
    have hlf := length_le_fieldText f.1 f.2.1
    exact readFields_last f.1 (h f List.mem_cons_self) (Nat.le_trans hlf (Nat.le_of_add_le_add_right hf)) rest done
  | cons e fs ih =>
    intro f fuel done h hf
    obtain ⟨g, rfl⟩ : ∃ g, fuel = g + 2 := ⟨fuel - 2, by omega⟩
    have hes : ∀ r ∈ e :: fs, ReadsAs r.2.1 r.2.2 := fun r hm => h r (List.mem_cons_of_mem f hm)
    have hlen := congrArg List.length (join_cons_cons (fieldText f.1 f.2.1) (fieldText e.1 e.2.1)
      (fs.map fun g => fieldText g.1 g.2.1) [])
    have hlf := length_le_fieldText f.1 f.2.1
    simp only [List.map_cons, List.append_nil, List.length_append, List.length_cons] at hf hlen
    have hskip : skip (Text.join (lit ",") (fieldText e.1 e.2.1 :: fs.map fun g => fieldText g.1 g.2.1) ++
        CodePoint.ofChar '}' :: rest) = Text.join (lit ",") (fieldText e.1 e.2.1 :: fs.map fun g =>
          fieldText g.1 g.2.1) ++ CodePoint.ofChar '}' :: rest := by
      obtain ⟨u, hu⟩ := join_cons (fieldText e.1 e.2.1) (fs.map fun g => fieldText g.1 g.2.1)
      obtain ⟨s, hs⟩ := fieldText_append e.1 e.2.1 (u ++ CodePoint.ofChar '}' :: rest)
      rw [hu, List.append_assoc, hs]
      exact skip_cons rfl s
    have hi := ih e (g + 1) ((.text f.1, f.2.2) :: done) hes (by simp only [List.map_cons]; omega)
    simp only [List.map_cons] at hi ⊢
    rw [join_cons_cons, readFields_comma f.1 (h f List.mem_cons_self) (by omega) hskip, hi, List.reverse_cons,
      List.append_assoc, List.singleton_append]

private theorem braced_append (ts : List Text) (rest : Text) :
    braced ts ++ rest = CodePoint.ofChar '{' :: (Text.join (lit ",") ts ++ CodePoint.ofChar '}' :: rest) := by
  rw [braced, List.append_assoc, List.append_assoc]
  rfl

private theorem readsAs_map {fs : List (Text × Text × Value)} (h : ∀ f ∈ fs, ReadsAs f.2.1 f.2.2) :
    ReadsAs (braced (fs.map fun f => fieldText f.1 f.2.1))
      (Value.ofFields (fs.map fun f => (.text f.1, f.2.2))) where
  opens := by
    have hb := braced_append (fs.map fun f => fieldText f.1 f.2.1) []
    rw [List.append_nil] at hb
    exact ⟨CodePoint.ofChar '{', _, hb, by decide, by decide⟩
  read fuel rest hf _ := by
    have hv : (CodePoint.ofChar '{').val = 0x7B := rfl
    rw [braced_append, readValue, if_neg (by rw [hv]; decide), if_neg (by rw [hv]; decide), if_pos hv]
    cases fs with
    | nil =>
      have hc : (CodePoint.ofChar '}').val = 0x7D := rfl
      rw [List.map_nil, Text.join, List.nil_append, skip_cons rfl]
      dsimp only
      rw [if_pos hc, List.map_nil]
      rfl
    | cons f fs =>
      have hb := congrArg List.length (braced_append ((f :: fs).map fun f => fieldText f.1 f.2.1) [])
      simp only [List.append_nil, List.length_cons, List.length_append, List.length_nil] at hb
      obtain ⟨u, hu⟩ := join_cons (fieldText f.1 f.2.1) (fs.map fun f => fieldText f.1 f.2.1)
      obtain ⟨s, hj⟩ : ∃ s, Text.join (lit ",") ((f :: fs).map fun f => fieldText f.1 f.2.1) ++
          CodePoint.ofChar '}' :: rest = CodePoint.ofChar '"' :: s := by
        rw [List.map_cons, hu, List.append_assoc]
        exact fieldText_append f.1 f.2.1 _
      have hc : ¬(CodePoint.ofChar '"').val = 0x7D := by decide
      have hi := readFields_join rest fs f fuel [] h (by omega)
      rw [hj] at hi ⊢
      rw [skip_cons rfl]
      dsimp only
      rw [if_neg hc, hi, List.reverse_nil, List.nil_append]

private theorem hereditary_readsAs : Hereditary ReadsAs where
  null := readsAs_null
  bool := readsAs_bool
  int _ h := readsAs_int h
  float _ _ h := readsAs_float h
  text t _ := readsAs_quote t
  list _ h := readsAs_list h
  map _ h := readsAs_map fun f hf => (h f hf).2

/-- Canonical text is read as the value that it spells. -/
theorem readsAs_of_encode {v : Value} {t : Text} (h : encode v = .ok t) : ReadsAs t (reread v) :=
  hereditary_readsAs.of_encode v t h

theorem ReadsAs.read_append (h : ReadsAs t v) (he : EndsNumber rest) :
    Json.read (t ++ rest) = if (skip rest).isEmpty then .ok v else .error malformed := by
  have hf : t.length ≤ (t ++ rest).length := by
    rw [List.length_append]
    omega
  rw [Json.read, h.skip_append, h.read _ rest hf he]

end AuditTrail.Json
