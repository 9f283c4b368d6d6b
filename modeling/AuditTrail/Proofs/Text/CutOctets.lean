import AuditTrail.Text.Octets

/-!
# Octets that were cut off

The front of the octets of a text is the octets of a front of the text, and perhaps some of the octets of
the next code point (`prefix_encode`). No octets decode in which a code point is cut off in front of a
seven-bit character (`decode?_of_cut`).
-/

namespace AuditTrail.Utf8

private theorem exists_lead (c : CodePoint) : ∃ a tail bits low,
    ofCodePoint c = a :: tail ∧ lead? a = some (bits, tail.length, low) := by
  have hlt := c.isLt
  rw [ofCodePoint]
  by_cases h1 : c.val < 0x80
  · have ha : c.val.toUInt8.toNat = c.val := toNat_toUInt8 (by omega)
    rw [if_pos h1]
    exact ⟨_, _, _, _, rfl, by rw [lead?, ha, if_pos h1]; rfl⟩
  · by_cases h2 : c.val < 0x800
    · have ha : (0xC0 + c.val / 64).toUInt8.toNat = 0xC0 + c.val / 64 := toNat_toUInt8 (by omega)
      rw [if_neg h1, if_pos h2]
      refine ⟨_, _, 0xC0 + c.val / 64 - 0xC0, 0x80, rfl, ?_⟩
      rw [lead?, ha, if_neg (by omega), if_neg (by omega), if_pos (by omega)]
      rfl
    · by_cases h3 : c.val < 0x10000
      · have ha : (0xE0 + c.val / 4096).toUInt8.toNat = 0xE0 + c.val / 4096 := toNat_toUInt8 (by omega)
        rw [if_neg h1, if_neg h2, if_pos h3]
        refine ⟨_, _, 0xE0 + c.val / 4096 - 0xE0, 0x800, rfl, ?_⟩
        rw [lead?, ha, if_neg (by omega), if_neg (by omega), if_neg (by omega), if_pos (by omega)]
        rfl
      · have ha : (0xF0 + c.val / 262144).toUInt8.toNat = 0xF0 + c.val / 262144 := toNat_toUInt8 (by omega)
        rw [if_neg h1, if_neg h2, if_neg h3]
        refine ⟨_, _, 0xF0 + c.val / 262144 - 0xF0, 0x10000, rfl, ?_⟩
        rw [lead?, ha, if_neg (by omega), if_neg (by omega), if_neg (by omega), if_neg (by omega)]
        rfl

private theorem join?_of_cut {part rest : List UInt8} {b : UInt8} (hb : continuation? b = none) {count : Nat}
    (h : part.length < count) (n : Nat) : join? count n (part ++ b :: rest) = none := by
  induction part generalizing count n with
  | nil =>
    obtain ⟨k, rfl⟩ : ∃ k, count = k + 1 := ⟨count - 1, by simp only [List.length_nil] at h; omega⟩
    rw [List.nil_append, join?, hb]
  | cons a part ih =>
    rw [List.length_cons] at h
    obtain ⟨k, rfl⟩ : ∃ k, count = k + 1 := ⟨count - 1, by omega⟩
    rw [List.cons_append, join?]
    cases continuation? a with
    | none => rfl
    | some d => exact ih (by omega) _

/-- Octets of a code point, but neither all nor none of them. -/
def Cut (c : CodePoint) (part : List UInt8) : Prop := ∃ more, ofCodePoint c = part ++ more ∧ part ≠ [] ∧ more ≠ []

theorem not_cut_of_lt {c : CodePoint} (hc : c.val < 0x80) (part : List UInt8) : ¬Cut c part := by
  rintro ⟨more, he, hp, hm⟩
  have ho : ofCodePoint c = [c.val.toUInt8] := by
    rw [ofCodePoint]
    exact if_pos hc
  have hlen := congrArg List.length he
  have h1 := List.length_pos_iff.mpr hp
  have h2 := List.length_pos_iff.mpr hm
  rw [ho, List.length_append, List.length_singleton] at hlen
  omega

private theorem next?_of_cut {c : CodePoint} {part : List UInt8} {b : UInt8} (h : Cut c part)
    (hb : continuation? b = none) (mode : Surrogates) (rest : List UInt8) :
    next? mode (part ++ b :: rest) = none := by
  obtain ⟨more, hc, hp, hm⟩ := h
  obtain ⟨a, tail, bits, low, ha, hl⟩ := exists_lead c
  cases part with
  | nil => exact absurd rfl hp
  | cons a' part =>
    rw [ha, List.cons_append, List.cons.injEq] at hc
    obtain ⟨rfl, rfl⟩ := hc
    have hlt : part.length < (part ++ more).length := by
      have := List.length_pos_iff.mpr hm
      rw [List.length_append]
      omega
    rw [List.cons_append]
    simp only [next?, hl, join?_of_cut hb hlt]

private theorem decodeLoop_append {mode : Surrogates} {t : Text} (h : t.all (allows mode) = true) (bs : List UInt8)
    {fuel : Nat} (hf : t.length ≤ fuel) (done : Text) :
    decodeLoop mode fuel (encode t ++ bs) done = decodeLoop mode (fuel - t.length) bs (t.reverse ++ done) := by
  induction t generalizing fuel done with
  | nil => rfl
  | cons c t ih =>
    rw [List.all_cons, Bool.and_eq_true] at h
    rw [List.length_cons] at hf
    obtain ⟨k, rfl⟩ : ∃ k, fuel = k + 1 := ⟨fuel - 1, by omega⟩
    have hn := next?_ofCodePoint h.1 (encode t ++ bs)
    obtain ⟨a, tail, -, -, ha, -⟩ := exists_lead c
    rw [ha, List.cons_append] at hn
    rw [encode_cons, ha, List.append_assoc, List.cons_append, decodeLoop, hn]
    · dsimp only
      rw [ih h.2 (by omega), List.length_cons, Nat.add_sub_add_right, List.reverse_cons, List.append_assoc,
        List.singleton_append]
    · exact fun e => absurd e (List.cons_ne_nil _ _)

theorem all_accepted (t : Text) : t.all (allows .accepted) = true :=
  List.all_eq_true.mpr fun _ _ => Bool.or_true _

theorem encode_append (s t : Text) : encode (s ++ t) = encode s ++ encode t := List.flatMap_append

/-- The front of the octets of a text ends with a code point, or inside one. -/
theorem prefix_encode {t : Text} {front rest : List UInt8} (h : front ++ rest = encode t) :
    ∃ s u, t = s ++ u ∧
      (front = encode s ∨ ∃ c v part, u = c :: v ∧ Cut c part ∧ front = encode s ++ part) := by
  induction t generalizing front with
  | nil =>
    have hf : front = [] := (List.append_eq_nil_iff.mp h).1
    exact ⟨[], [], rfl, .inl hf⟩
  | cons c t ih =>
    rw [encode_cons, List.append_eq_append_iff] at h
    rcases h with ⟨more, hc, -⟩ | ⟨later, rfl, hl⟩
    · by_cases hf : front = []
      · exact ⟨[], c :: t, rfl, .inl hf⟩
      · by_cases hm : more = []
        · rw [hm, List.append_nil] at hc
          refine ⟨[c], t, rfl, .inl ?_⟩
          rw [← hc, encode, List.flatMap_cons, List.flatMap_nil, List.append_nil]
        · exact ⟨[], c :: t, rfl, .inr ⟨c, t, front, rfl, ⟨more, hc, hf, hm⟩, rfl⟩⟩
    · obtain ⟨s, u, rfl, hs⟩ := ih hl.symm
      refine ⟨c :: s, u, rfl, ?_⟩
      rcases hs with rfl | ⟨d, v, part, hu, hp, rfl⟩
      · exact .inl (encode_cons c s).symm
      · exact .inr ⟨d, v, part, hu, hp, by rw [encode_cons, List.append_assoc]⟩

/-- A code point that is cut off in front of a seven-bit character cannot be read. -/
theorem decode?_of_cut (s : Text) {c : CodePoint} {part rest : List UInt8} {b : UInt8} (h : Cut c part)
    (hb : continuation? b = none) :
    decode? .accepted (encode s ++ (part ++ b :: rest)) = none := by
  have hn := next?_of_cut h hb .accepted rest
  have hlen : s.length ≤ (encode s ++ (part ++ b :: rest)).length := by
    have := length_le_length_encode s
    rw [List.length_append]
    omega
  rw [decode?, decodeLoop_append (all_accepted s) _ hlen]
  generalize (encode s ++ (part ++ b :: rest)).length - s.length = fuel
  cases hp : part ++ b :: rest with
  | nil => exact absurd hp (by simp)
  | cons x xs =>
    rw [hp] at hn
    cases fuel with
    | zero => rfl
    | succ fuel => simp only [decodeLoop, hn]

theorem le_of_mem_encode {t : Text} (h : ∀ c ∈ t, 0x20 ≤ c.val) {b : UInt8} (hb : b ∈ encode t) : 0x20 ≤ b.toNat := by
  obtain ⟨c, hc, hm⟩ := List.mem_flatMap.mp hb
  have hlt := c.isLt
  have hge := h c hc
  have tail : ∀ n, (0x80 + n % 64).toUInt8.toNat = 0x80 + n % 64 := fun n => toNat_toUInt8 (by omega)
  rw [ofCodePoint] at hm
  split at hm
  · rw [List.mem_singleton.mp hm, toNat_toUInt8 (by omega)]
    exact hge
  · split at hm
    · simp only [List.mem_cons, List.not_mem_nil, or_false] at hm
      rcases hm with rfl | rfl
      · rw [toNat_toUInt8 (by omega)]
        omega
      · rw [tail]
        omega
    · split at hm
      · simp only [List.mem_cons, List.not_mem_nil, or_false] at hm
        rcases hm with rfl | rfl | rfl
        · rw [toNat_toUInt8 (by omega)]
          omega
        · rw [tail]
          omega
        · rw [tail]
          omega
      · simp only [List.mem_cons, List.not_mem_nil, or_false] at hm
        rcases hm with rfl | rfl | rfl | rfl
        · rw [toNat_toUInt8 (by omega)]
          omega
        · rw [tail]
          omega
        · rw [tail]
          omega
        · rw [tail]
          omega

end AuditTrail.Utf8

namespace AuditTrail.Octets

theorem decode?_of_brace {b : UInt8} (hb : b ≠ 0) (rest : List UInt8) :
    decode? (0x7B :: b :: rest) = Utf8.decode? .accepted (0x7B :: b :: rest) := by
  have hf : form (0x7B :: b :: rest) = .utf8 0 := by
    have hu : unmarkedForm (0x7B :: b :: rest) = .utf8 0 := by
      match rest with
      | [] => simp [unmarkedForm, hb]
      | [_] => rfl
      | _ :: _ :: _ => simp [unmarkedForm, hb]
    rw [form, List.map_cons, ← hu]
    rfl
  rw [decode?, hf]
  rfl

end AuditTrail.Octets
