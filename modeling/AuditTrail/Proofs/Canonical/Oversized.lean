import AuditTrail.Proofs.Canonical.Injective
import AuditTrail.Value.Literal

/-!
# Integers with too many digits

An integer with too many digits has no text, neither a canonical one nor one in a message. A value that has no canonical
text is outside the JSON values, or else it holds such an integer somewhere (`Canonical.encode_eq_error`); and no value
that holds one has a canonical text (`Canonical.not_holdsOversized_of_encode`).
-/

namespace AuditTrail

namespace Value

/-- A value is another one or holds it at some depth, as an item or as the key or the value of a field. -/
inductive Holds : Value → Value → Prop where
  | self (v : Value) : Holds v v
  | item {xs : List Value} {x v : Value} : x ∈ xs → Holds x v → Holds (.list xs) v
  | part {xs : List Value} {x v : Value} : x ∈ xs → Holds x v → Holds (.tuple xs) v
  | key {fs : List (Value × Value)} {f : Value × Value} {v : Value} : f ∈ fs → Holds f.1 v → Holds (.map fs) v
  | value {fs : List (Value × Value)} {f : Value × Value} {v : Value} : f ∈ fs → Holds f.2 v → Holds (.map fs) v

/-- A value holds an integer with too many digits. -/
def HoldsOversized (v : Value) : Prop := ∃ i, Decimal.isOversized i = true ∧ v.Holds (.int i)

private theorem HoldsOversized.of_item {xs : List Value} (h : ∃ x ∈ xs, x.HoldsOversized) :
    (Value.list xs).HoldsOversized ∧ (Value.tuple xs).HoldsOversized := by
  obtain ⟨x, hx, i, hi, hh⟩ := h
  exact ⟨⟨i, hi, .item hx hh⟩, i, hi, .part hx hh⟩

private theorem HoldsOversized.of_field {fs : List (Value × Value)}
    (h : ∃ f ∈ fs, f.1.HoldsOversized ∨ f.2.HoldsOversized) : (Value.map fs).HoldsOversized := by
  obtain ⟨f, hf, ⟨i, hi, hh⟩ | ⟨i, hi, hh⟩⟩ := h
  · exact ⟨i, hi, .key hf hh⟩
  · exact ⟨i, hi, .value hf hh⟩

mutual
private theorem holdsOversized_of_literal? : ∀ v : Value, v.literal? = none → v.HoldsOversized
  | .null | .bool _ | .float _ | .text _ | .bytes _ | .object _ => by
    intro h
    exact absurd h (by simp [literal?])
  | .int i => by
    intro h
    rw [literal?, intLiteral?] at h
    split at h
    · next hi => exact ⟨i, hi, .self _⟩
    · exact absurd h (by simp)
  | .list xs => by
    intro h
    rw [literal?, Option.map_eq_none_iff] at h
    exact (HoldsOversized.of_item (exists_of_literals? xs h)).1
  | .tuple xs => by
    intro h
    rw [literal?, Option.map_eq_none_iff] at h
    exact (HoldsOversized.of_item (exists_of_literals? xs h)).2
  | .map fs => by
    intro h
    rw [literal?, Option.map_eq_none_iff] at h
    exact .of_field (exists_of_fieldLiterals? fs h)

private theorem exists_of_literals? : ∀ xs : List Value, literals? xs = none → ∃ x ∈ xs, x.HoldsOversized
  | [] => by
    intro h
    exact absurd h (by simp [literals?])
  | x :: xs => by
    intro h
    rw [literals?] at h
    cases hx : literal? x with
    | none => exact ⟨x, List.mem_cons_self, holdsOversized_of_literal? x hx⟩
    | some t =>
      cases hs : literals? xs with
      | some ts => simp [hx, hs] at h
      | none =>
        obtain ⟨y, hy, ho⟩ := exists_of_literals? xs hs
        exact ⟨y, List.mem_cons_of_mem x hy, ho⟩

private theorem exists_of_fieldLiterals? : ∀ fs : List (Value × Value), fieldLiterals? fs = none →
    ∃ f ∈ fs, f.1.HoldsOversized ∨ f.2.HoldsOversized
  | [] => by
    intro h
    exact absurd h (by simp [fieldLiterals?])
  | (k, v) :: fs => by
    intro h
    rw [fieldLiterals?, fieldLiteral?] at h
    cases hk : literal? k with
    | none => exact ⟨(k, v), List.mem_cons_self, .inl (holdsOversized_of_literal? k hk)⟩
    | some s =>
      cases hv : literal? v with
      | none => exact ⟨(k, v), List.mem_cons_self, .inr (holdsOversized_of_literal? v hv)⟩
      | some t =>
        cases hs : fieldLiterals? fs with
        | some ts => simp [hk, hv, hs] at h
        | none =>
          obtain ⟨f, hf, ho⟩ := exists_of_fieldLiterals? fs hs
          exact ⟨f, List.mem_cons_of_mem _ hf, ho⟩
end

end Value

namespace Canonical

open Value (HoldsOversized)

private theorem encodeText_eq_error {t : Text} {f : Fault} (h : encodeText t = .error f) :
    ∃ why, f = .encoding why := by
  rw [encodeText] at h
  split at h
  · exact absurd h (by simp)
  · exact ⟨_, (Except.error.inj h).symm⟩

private theorem encodeKey_eq_error {k : Value} {f : Fault} (h : encodeKey k = .error f) :
    (∃ why, f = .encoding why) ∨ f = .oversized ∧ k.HoldsOversized := by
  cases k with
  | text t => exact .inl (encodeText_eq_error h)
  | _ =>
    simp only [encodeKey] at h
    split at h
    · exact .inl ⟨_, (Except.error.inj h).symm⟩
    · next hl => exact .inr ⟨(Except.error.inj h).symm, Value.holdsOversized_of_literal? _ hl⟩

mutual
/-- A value without a canonical text is outside the JSON values, or holds an integer with too many digits. -/
theorem encode_eq_error : ∀ (v : Value) (f : Fault), encode v = .error f →
    (∃ why, f = .encoding why) ∨ f = .oversized ∧ v.HoldsOversized
  | .null | .bool _ => by
    intro f h
    exact absurd h (by simp [encode])
  | .int i => by
    intro f h
    rw [encode, encodeInt] at h
    split at h
    · next hi => exact .inr ⟨(Except.error.inj h).symm, i, hi, .self _⟩
    · exact absurd h (by simp)
  | .float x => by
    intro f h
    rw [encode, encodeFloat] at h
    split at h
    · exact .inl ⟨_, (Except.error.inj h).symm⟩
    · split at h <;> exact absurd h (by simp)
  | .text t => by
    intro f h
    rw [encode] at h
    exact .inl (encodeText_eq_error h)
  | .list xs => by
    intro f h
    rw [encode, Fault.map_eq_error_iff] at h
    exact (encodeItems_eq_error xs f h).imp_right fun ⟨hf, ho⟩ => ⟨hf, (Value.HoldsOversized.of_item ho).1⟩
  | .tuple xs => by
    intro f h
    rw [encode, Fault.map_eq_error_iff] at h
    exact (encodeItems_eq_error xs f h).imp_right fun ⟨hf, ho⟩ => ⟨hf, (Value.HoldsOversized.of_item ho).2⟩
  | .map fs => by
    intro f h
    rw [encode, Fault.bind_eq_error_iff] at h
    rcases h with hk | ⟨keys, -, h⟩
    · obtain ⟨field, hm, he⟩ := Fault.exists_of_mapM_eq_error hk
      exact (encodeKey_eq_error he).imp_right fun ⟨hf, ho⟩ => ⟨hf, .of_field ⟨field, hm, .inl ho⟩⟩
    · rcases Fault.bind_eq_error_iff.mp h with ht | ⟨ts, -, h⟩
      · obtain ⟨written, hm, hw⟩ := Fault.exists_of_mapM_eq_error ht
        have hv : written.2 ∈ encodeValues fs := (List.of_mem_zip (mem_sortFields.mp hm)).2
        refine (encodeValues_eq_error fs f (Fault.map_eq_error_iff.mp hw ▸ hv)).imp_right ?_
        exact fun ⟨hf, field, hfs, ho⟩ => ⟨hf, .of_field ⟨field, hfs, .inr ho⟩⟩
      · exact absurd h (by simp [pure, Except.pure])
  | .bytes _ | .object _ => by
    intro f h
    simp only [encode, Except.error.injEq] at h
    exact .inl ⟨_, h.symm⟩

private theorem encodeItems_eq_error : ∀ (xs : List Value) (f : Fault), encodeItems xs = .error f →
    (∃ why, f = .encoding why) ∨ f = .oversized ∧ ∃ x ∈ xs, x.HoldsOversized
  | [] => by
    intro f h
    exact absurd h (by simp [encodeItems])
  | x :: xs => by
    intro f h
    rw [encodeItems, Fault.bind_eq_error_iff] at h
    rcases h with hx | ⟨t, -, h⟩
    · exact (encode_eq_error x f hx).imp_right fun ⟨hf, ho⟩ => ⟨hf, x, List.mem_cons_self, ho⟩
    · rcases Fault.bind_eq_error_iff.mp h with hs | ⟨ts, -, h⟩
      · refine (encodeItems_eq_error xs f hs).imp_right ?_
        exact fun ⟨hf, y, hy, ho⟩ => ⟨hf, y, List.mem_cons_of_mem x hy, ho⟩
      · exact absurd h (by simp [pure, Except.pure])

private theorem encodeValues_eq_error : ∀ (fs : List (Value × Value)) (f : Fault), .error f ∈ encodeValues fs →
    (∃ why, f = .encoding why) ∨ f = .oversized ∧ ∃ g ∈ fs, g.2.HoldsOversized
  | [] => by
    intro f h
    exact absurd h (by simp [encodeValues])
  | (k, v) :: fs => by
    intro f h
    rw [encodeValues, encodeValue] at h
    rcases List.mem_cons.mp h with he | hm
    · exact (encode_eq_error v f he.symm).imp_right fun ⟨hf, ho⟩ => ⟨hf, (k, v), List.mem_cons_self, ho⟩
    · refine (encodeValues_eq_error fs f hm).imp_right ?_
      exact fun ⟨hf, g, hg, ho⟩ => ⟨hf, g, List.mem_cons_of_mem _ hg, ho⟩
end

/-- A value that holds an integer with too many digits has no canonical text. -/
theorem not_holdsOversized_of_encode {v : Value} {t : Text} (h : encode v = .ok t) : ¬v.HoldsOversized := by
  rintro ⟨i, hi, hh⟩
  generalize hw : Value.int i = w at hh
  induction hh generalizing t with
  | self v =>
    rw [← hw, encode, encodeInt, if_pos hi] at h
    exact absurd h (by simp)
  | item hx _ ih =>
    rw [encode, Fault.map_eq_ok_iff] at h
    obtain ⟨ts, hs, -⟩ := h
    obtain ⟨u, hu⟩ := exists_encodeItems_iff.mp ⟨ts, hs⟩ _ hx
    exact ih hu hw
  | part hx _ ih =>
    rw [encode, Fault.map_eq_ok_iff] at h
    obtain ⟨ts, hs, -⟩ := h
    obtain ⟨u, hu⟩ := exists_encodeItems_iff.mp ⟨ts, hs⟩ _ hx
    exact ih hu hw
  | key hf hk _ =>
    obtain ⟨ps, hps, -⟩ := encode_map_eq_ok_iff.mp h
    obtain ⟨p, hp, -, -⟩ := exists_forall₂_iff.mp ⟨ps, hps⟩ _ hf
    -- A key is a text, which holds nothing else.
    rw [hp, ← hw] at hk
    cases hk
  | value hf _ ih =>
    obtain ⟨ps, hps, -⟩ := encode_map_eq_ok_iff.mp h
    obtain ⟨p, -, -, hv⟩ := exists_forall₂_iff.mp ⟨ps, hps⟩ _ hf
    exact ih hv hw

end Canonical

end AuditTrail
