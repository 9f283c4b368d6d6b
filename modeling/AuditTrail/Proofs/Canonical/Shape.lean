import AuditTrail.Proofs.Canonical.Scanning

/-!
# The shape of canonical text

Canonical text holds no control characters, so that a line end never splits it (`le_of_mem_encode`), and no lone
surrogates, so that its octets are proper UTF-8 (`isWellFormed_of_encode`). The canonical text of a map is a pair of
braces around fields, of which the first opens with a quotation mark (`hereditary_braced`).
-/

namespace AuditTrail.Canonical

private theorem le_of_mem_lit {s : String} (h : (lit s).all (fun c => 0x20 ≤ c.val) = true) {c : CodePoint}
    (hc : c ∈ lit s) : 0x20 ≤ c.val :=
  of_decide_eq_true (List.all_eq_true.mp h c hc)

private theorem le_of_mem_escape {c d : CodePoint} (h : d ∈ escape c) : 0x20 ≤ d.val := by
  rw [escape] at h
  split at h
  · exact le_of_mem_lit (by decide) h
  · exact le_of_mem_lit (by decide) h
  · exact le_of_mem_lit (by decide) h
  · exact le_of_mem_lit (by decide) h
  · exact le_of_mem_lit (by decide) h
  · exact le_of_mem_lit (by decide) h
  · exact le_of_mem_lit (by decide) h
  · split at h
    · rcases List.mem_append.mp h with hm | hm
      · exact le_of_mem_lit (by decide) hm
      · have hv := Text.val_of_mem_hex hm
        omega
    · rw [List.mem_singleton.mp h]
      omega

private theorem le_of_mem_quote {t : Text} {c : CodePoint} (h : c ∈ quote t) : 0x20 ≤ c.val := by
  rcases List.mem_append.mp h with h | hm
  · rcases List.mem_append.mp h with hm | hm
    · exact le_of_mem_lit (by decide) hm
    · obtain ⟨d, -, hd⟩ := List.mem_flatMap.mp hm
      exact le_of_mem_escape hd
  · exact le_of_mem_lit (by decide) hm

private theorem le_of_isNumeral {c : CodePoint} (h : isNumeral c = true) : 0x20 ≤ c.val := by
  simp only [isNumeral, Bool.or_eq_true, Bool.and_eq_true, decide_eq_true_eq, beq_iff_eq] at h
  omega

private theorem mem_join {separator : Text} {ts : List Text} {c : CodePoint} (h : c ∈ Text.join separator ts) :
    c ∈ separator ∨ ∃ t ∈ ts, c ∈ t := by
  induction ts with
  | nil => exact absurd h List.not_mem_nil
  | cons t us ih =>
    cases us with
    | nil => exact .inr ⟨t, List.mem_cons_self, h⟩
    | cons u us =>
      rcases List.mem_append.mp h with h | hm
      · rcases List.mem_append.mp h with hm | hm
        · exact .inr ⟨t, List.mem_cons_self, hm⟩
        · exact .inl hm
      · rcases ih hm with hs | ⟨v, hv, hm⟩
        · exact .inl hs
        · exact .inr ⟨v, List.mem_cons_of_mem t hv, hm⟩

private theorem le_of_mem_enclosed {l r : String} (hl : (lit l).all (fun c => 0x20 ≤ c.val) = true)
    (hr : (lit r).all (fun c => 0x20 ≤ c.val) = true) {ts : List Text} (h : ∀ t ∈ ts, ∀ c ∈ t, 0x20 ≤ c.val)
    {c : CodePoint} (hc : c ∈ lit l ++ Text.join (lit ",") ts ++ lit r) : 0x20 ≤ c.val := by
  rcases List.mem_append.mp hc with hc | hm
  · rcases List.mem_append.mp hc with hm | hm
    · exact le_of_mem_lit hl hm
    · rcases mem_join hm with hs | ⟨t, ht, hm⟩
      · exact le_of_mem_lit (by decide) hs
      · exact h t ht c hm
  · exact le_of_mem_lit hr hm

private theorem le_of_mem_fieldText {key t : Text} (h : ∀ c ∈ t, 0x20 ≤ c.val) {c : CodePoint}
    (hc : c ∈ fieldText key t) : 0x20 ≤ c.val := by
  rcases List.mem_append.mp hc with hc | hm
  · rcases List.mem_append.mp hc with hm | hm
    · exact le_of_mem_quote hm
    · exact le_of_mem_lit (by decide) hm
  · exact h c hm

private theorem hereditary_printable : Hereditary fun t _ => ∀ c ∈ t, 0x20 ≤ c.val where
  null _ := le_of_mem_lit (by decide)
  bool b := by
    cases b with
    | true => exact fun _ => le_of_mem_lit (by decide)
    | false => exact fun _ => le_of_mem_lit (by decide)
  int _ _ _ h := le_of_isNumeral (isNumeral_of_mem_ofInt h)
  float _ _ _ _ h := le_of_isNumeral (isNumeral_of_mem_floatText h)
  text _ _ _ h := le_of_mem_quote h
  list ps h c hc := by
    refine le_of_mem_enclosed (by decide) (by decide) ?_ hc
    intro t ht
    obtain ⟨p, hp, rfl⟩ := List.mem_map.mp ht
    exact h p hp
  map fs h c hc := by
    refine le_of_mem_enclosed (by decide) (by decide) ?_ hc
    intro t ht
    obtain ⟨f, hf, rfl⟩ := List.mem_map.mp ht
    exact fun _ => le_of_mem_fieldText (h f hf).2

theorem le_of_mem_encode {v : Value} {t : Text} (h : encode v = .ok t) {c : CodePoint} (hc : c ∈ t) :
    0x20 ≤ c.val := hereditary_printable.of_encode v t h c hc

theorem isWellFormed_of_forall_lt {t : Text} (h : ∀ c ∈ t, c.val < 0xD800) : t.isWellFormed = true := by
  apply List.all_eq_true.mpr
  intro c hc
  have hlt := h c hc
  simp only [CodePoint.isSurrogate, Bool.not_eq_true', Bool.and_eq_false_iff, decide_eq_false_iff_not]
  omega

private theorem isWellFormed_of_isNumeral {t : Text} (h : ∀ c ∈ t, isNumeral c = true) : t.isWellFormed = true := by
  apply isWellFormed_of_forall_lt
  intro c hc
  have hn := h c hc
  simp only [isNumeral, Bool.or_eq_true, Bool.and_eq_true, decide_eq_true_eq, beq_iff_eq] at hn
  omega

private theorem isWellFormed_escape {c : CodePoint} (h : c.isSurrogate = false) : (escape c).isWellFormed = true := by
  rw [escape]
  split
  · exact Text.isWellFormed_lit _
  · exact Text.isWellFormed_lit _
  · exact Text.isWellFormed_lit _
  · exact Text.isWellFormed_lit _
  · exact Text.isWellFormed_lit _
  · exact Text.isWellFormed_lit _
  · exact Text.isWellFormed_lit _
  · split
    · have hx : ∀ n, (Text.hex 4 n).isWellFormed = true := by
        intro n
        apply isWellFormed_of_forall_lt
        intro d hd
        have hv := Text.val_of_mem_hex hd
        omega
      rw [Text.isWellFormed_append, Text.isWellFormed_lit, hx]
      rfl
    · simp [Text.isWellFormed, h]

private theorem isWellFormed_quote {t : Text} (h : t.isWellFormed = true) : (quote t).isWellFormed = true := by
  have hflat : Text.isWellFormed (t.flatMap escape) = true := by
    induction t with
    | nil => rfl
    | cons c t ih =>
      rw [Text.isWellFormed, List.all_cons, Bool.and_eq_true, Bool.not_eq_true'] at h
      rw [List.flatMap_cons, Text.isWellFormed_append, isWellFormed_escape h.1, ih h.2]
      rfl
  rw [quote, Text.isWellFormed_append, Text.isWellFormed_append, hflat, Text.isWellFormed_lit]
  rfl

private theorem isWellFormed_join {ts : List Text} (h : ∀ t ∈ ts, t.isWellFormed = true) :
    (Text.join (lit ",") ts).isWellFormed = true := by
  apply List.all_eq_true.mpr
  intro c hc
  rcases mem_join hc with hs | ⟨t, ht, hm⟩
  · exact List.all_eq_true.mp (Text.isWellFormed_lit ",") c hs
  · exact List.all_eq_true.mp (h t ht) c hm

private theorem hereditary_isWellFormed : Hereditary fun t _ => t.isWellFormed = true where
  null := Text.isWellFormed_lit _
  bool _ := Text.isWellFormed_lit _
  int _ _ := isWellFormed_of_isNumeral fun _ => isNumeral_of_mem_ofInt
  float _ _ _ := isWellFormed_of_isNumeral fun _ => isNumeral_of_mem_floatText
  text _ h := isWellFormed_quote h
  list ps h := by
    have hj : (Text.join (lit ",") (ps.map Prod.fst)).isWellFormed = true := isWellFormed_join fun t ht => by
      obtain ⟨p, hp, rfl⟩ := List.mem_map.mp ht
      exact h p hp
    rw [bracketed, Text.isWellFormed_append, Text.isWellFormed_append, hj, Text.isWellFormed_lit, Text.isWellFormed_lit]
    rfl
  map fs h := by
    have hj : (Text.join (lit ",") (fs.map fun f => fieldText f.1 f.2.1)).isWellFormed = true :=
      isWellFormed_join fun t ht => by
        obtain ⟨f, hf, rfl⟩ := List.mem_map.mp ht
        rw [fieldText, Text.isWellFormed_append, Text.isWellFormed_append, isWellFormed_quote (h f hf).1,
          Text.isWellFormed_lit, (h f hf).2]
        rfl
    rw [braced, Text.isWellFormed_append, Text.isWellFormed_append, hj, Text.isWellFormed_lit, Text.isWellFormed_lit]
    rfl

theorem isWellFormed_of_encode {v : Value} {t : Text} (h : encode v = .ok t) : t.isWellFormed = true :=
  hereditary_isWellFormed.of_encode v t h

/-- A map with fields is written as a pair of braces around what leads from outside to outside and
begins with a quotation mark. -/
def Braced (t : Text) (v : Value) : Prop := ∀ fs, v = .map fs → fs ≠ [] →
  ∃ u, t = lit "\x7b" ++ (CodePoint.ofChar '"' :: u) ++ lit "\x7d" ∧ Balanced (CodePoint.ofChar '"' :: u)

theorem hereditary_braced : Hereditary fun t v => Balanced t ∧ Braced t v where
  null := ⟨rfl, fun fs h => by simp at h⟩
  bool b := ⟨hereditary_balanced.bool b, fun fs h => by simp at h⟩
  int i hi := ⟨hereditary_balanced.int i hi, fun fs h => by simp at h⟩
  float x hf hz := ⟨hereditary_balanced.float x hf hz, fun fs h => by
    rw [rereadFloat, hz, if_neg (by decide), spelledNumber] at h
    dsimp only at h
    split at h <;> simp at h⟩
  text t ht := ⟨hereditary_balanced.text t ht, fun fs h => by simp at h⟩
  list ps hp := ⟨hereditary_balanced.list ps fun p hm => (hp p hm).1, fun fs h => by simp at h⟩
  map fs hf := by
    refine ⟨hereditary_balanced.map fs fun f hm => ⟨(hf f hm).1, (hf f hm).2.1⟩, ?_⟩
    intro gs hg hne
    have hb : Balanced (Text.join (lit ",") (fs.map fun f => fieldText f.1 f.2.1)) := by
      apply Balanced.join balanced_comma
      intro t ht
      obtain ⟨f, hm, rfl⟩ := List.mem_map.mp ht
      exact balanced_fieldText (hf f hm).2.1
    cases fs with
    | nil => exact absurd (Value.map.inj hg).symm hne
    | cons f fs =>
      have hq : ∃ u, Text.join (lit ",") ((f :: fs).map fun f => fieldText f.1 f.2.1) = CodePoint.ofChar '"' :: u := by
        cases fs with
        | nil => exact ⟨_, rfl⟩
        | cons g fs => exact ⟨_, rfl⟩
      obtain ⟨u, hu⟩ := hq
      rw [hu] at hb
      exact ⟨u, by rw [braced, hu], hb⟩

end AuditTrail.Canonical
