import AuditTrail.Proofs.Canonical.Spelling
import AuditTrail.Proofs.Decimal.ReadBack

/-!
# Canonical text is a fixed point

The value that a canonical text spells is seldom the value that was written: tuples come back as lists, maps in
another order, and whole floating point numbers as integers. Yet its canonical text is the same again
(`encode_reread`), as long as no map holds a key twice.
-/

namespace AuditTrail

namespace Value

mutual
/-- No map in the value holds a key twice. -/
def hasUniqueKeys : Value → Bool
  | .list xs => haveUniqueKeys xs
  | .tuple xs => haveUniqueKeys xs
  | .map fs => decide ((fs.map Prod.fst).Pairwise fun k l => k.same l = false) && fieldsHaveUniqueKeys fs
  | _ => true
termination_by structural v => v

def haveUniqueKeys : List Value → Bool
  | [] => true
  | x :: xs => hasUniqueKeys x && haveUniqueKeys xs
termination_by structural xs => xs

def fieldsHaveUniqueKeys : List (Value × Value) → Bool
  | [] => true
  | f :: fs => fieldHasUniqueKeys f && fieldsHaveUniqueKeys fs
termination_by structural fs => fs

def fieldHasUniqueKeys : Value × Value → Bool
  | (_, v) => hasUniqueKeys v
termination_by structural f => f
end

theorem hasUniqueKeys_map {fs : List (Value × Value)} (h : hasUniqueKeys (.map fs) = true) :
    ((fs.map Prod.fst).Pairwise fun k l => k.same l = false) ∧ fieldsHaveUniqueKeys fs = true := by
  rwa [hasUniqueKeys, Bool.and_eq_true, decide_eq_true_iff] at h

theorem haveUniqueKeys_cons {x : Value} {xs : List Value} (h : haveUniqueKeys (x :: xs) = true) :
    hasUniqueKeys x = true ∧ haveUniqueKeys xs = true := by
  rwa [haveUniqueKeys, Bool.and_eq_true] at h

theorem fieldsHaveUniqueKeys_cons {k v : Value} {fs : List (Value × Value)}
    (h : fieldsHaveUniqueKeys ((k, v) :: fs) = true) : hasUniqueKeys v = true ∧ fieldsHaveUniqueKeys fs = true := by
  rwa [fieldsHaveUniqueKeys, fieldHasUniqueKeys, Bool.and_eq_true] at h

mutual
theorem hasUniqueKeys_listed : ∀ v : Value, (Canonical.listed v).hasUniqueKeys = v.hasUniqueKeys
  | .null | .bool _ | .int _ | .float _ | .text _ | .bytes _ | .object _ => by simp only [Canonical.listed]
  | .list xs | .tuple xs => by simp only [Canonical.listed, hasUniqueKeys, haveUniqueKeys_listedItems xs]
  | .map fs => by
    simp only [Canonical.listed, hasUniqueKeys, Canonical.map_fst_listedFields, fieldsHaveUniqueKeys_listedFields fs]

private theorem haveUniqueKeys_listedItems : ∀ xs : List Value,
    haveUniqueKeys (Canonical.listedItems xs) = haveUniqueKeys xs
  | [] => by simp only [Canonical.listedItems]
  | x :: xs => by
    simp only [Canonical.listedItems, haveUniqueKeys, hasUniqueKeys_listed x, haveUniqueKeys_listedItems xs]

private theorem fieldsHaveUniqueKeys_listedFields : ∀ fs : List (Value × Value),
    fieldsHaveUniqueKeys (Canonical.listedFields fs) = fieldsHaveUniqueKeys fs
  | [] => by simp only [Canonical.listedFields]
  | (k, v) :: fs => by
    simp only [Canonical.listedFields, Canonical.listedField, fieldsHaveUniqueKeys, fieldHasUniqueKeys,
      hasUniqueKeys_listed v, fieldsHaveUniqueKeys_listedFields fs]
end

theorem pairwise_same_iff (ts : List Text) :
    ((ts.map Value.text).Pairwise fun k l => k.same l = false) ↔ ts.Nodup := by
  rw [List.pairwise_map, List.Nodup]
  apply List.Pairwise.iff
  intro s t
  rw [← Bool.not_eq_true, same_text_iff, Value.text.injEq]

private theorem put_of_new {k v : Value} {fs : List (Value × Value)} (h : ∀ f ∈ fs, f.1.same k = false) :
    put k v fs = fs ++ [(k, v)] := by
  induction fs with
  | nil => rfl
  | cons f fs ih =>
    have hf := h f List.mem_cons_self
    rw [put, hf, if_neg (by decide), ih fun g hg => h g (List.mem_cons_of_mem f hg), List.cons_append]

theorem ofFields_of_unique {fs : List (Value × Value)}
    (h : (fs.map Prod.fst).Pairwise fun k l => k.same l = false) : ofFields fs = .map fs := by
  have hfold : ∀ gs done : List (Value × Value),
      ((done ++ gs).map Prod.fst).Pairwise (fun k l => k.same l = false) →
      gs.foldl (fun done f => put f.1 f.2 done) done = done ++ gs := by
    intro gs
    induction gs with
    | nil =>
      intro done _
      exact (List.append_nil done).symm
    | cons g gs ih =>
      intro done hp
      have hnew : ∀ f ∈ done, f.1.same g.1 = false := by
        intro f hf
        rw [List.map_append, List.pairwise_append] at hp
        exact hp.2.2 f.1 (List.mem_map_of_mem hf) g.1 List.mem_cons_self
      rw [List.foldl_cons, put_of_new hnew, ih _ (by rwa [List.append_assoc]), List.append_assoc]
      rfl
  rw [ofFields, hfold fs [] h, List.nil_append]

end Value

namespace Canonical

open Value (hasUniqueKeys haveUniqueKeys fieldsHaveUniqueKeys)

private theorem length_le_of_whole {d : Decimal.Pointed}
    (hw : (d.digits.length : Int) ≤ d.point ∧ d.point ≤ canonicalStyle.high) :
    d.digits.length + (d.point - d.digits.length).toNat ≤ 21 := by
  obtain ⟨h1, h2⟩ := hw
  simp only [canonicalStyle] at h2
  omega

private theorem ofNat_of_whole {d : Decimal.Pointed} (hl : Decimal.Leads d.digits) (hd : ∀ n ∈ d.digits, n < 10)
    (hw : (d.digits.length : Int) ≤ d.point ∧ d.point ≤ canonicalStyle.high) :
    Decimal.ofNat (Decimal.value d.digits * 10 ^ (d.point - d.digits.length).toNat) = d.layout canonicalStyle := by
  have hlen := hl.length_pos
  have hlow : canonicalStyle.low < d.point := by
    simp only [canonicalStyle]
    omega
  obtain ⟨k, hk⟩ : ∃ k : Nat, d.point = d.digits.length + k := ⟨(d.point - d.digits.length).toNat, by omega⟩
  have hpow : (d.point - d.digits.length).toNat = k := by omega
  have hpad : d.point.toNat - d.digits.length = k := by omega
  have hleads : Decimal.Leads (d.digits ++ List.replicate k 0) := by
    obtain ⟨a, rest, he, ha⟩ := hl
    exact ⟨a, rest ++ List.replicate k 0, by rw [he, List.cons_append], ha⟩
  have hten : ∀ n ∈ d.digits ++ List.replicate k 0, n < 10 := by
    intro n hn
    rcases List.mem_append.mp hn with hm | hm
    · exact hd n hm
    · rw [List.eq_of_mem_replicate hm]
      decide
  rw [hpow, ← Decimal.value_append_zeros, Decimal.ofNat, Decimal.digits_value hleads hten, Decimal.textOfDigits_append,
    Decimal.textOfDigits_zeros, Decimal.Pointed.layout, if_pos ⟨hlow, hw.2⟩, Decimal.Pointed.plain,
    if_neg (by omega), if_pos hw.1, hpad]
  simp only [canonicalStyle, Bool.false_eq_true, if_false, List.append_nil]

private theorem isOversized_of_whole {d : Decimal.Pointed} (hd : ∀ n ∈ d.digits, n < 10)
    (hw : (d.digits.length : Int) ≤ d.point ∧ d.point ≤ canonicalStyle.high) {i : Int}
    (hi : i.natAbs = Decimal.value d.digits * 10 ^ (d.point - d.digits.length).toNat) :
    Decimal.isOversized i = false := by
  rw [Decimal.isOversized_eq_false_iff, hi]
  calc Decimal.value d.digits * 10 ^ (d.point - d.digits.length).toNat
      < 10 ^ d.digits.length * 10 ^ (d.point - d.digits.length).toNat :=
        Nat.mul_lt_mul_of_pos_right (Decimal.value_lt hd) (Nat.pow_pos (by decide))
    _ = 10 ^ (d.digits.length + (d.point - d.digits.length).toNat) := (Nat.pow_add ..).symm
    _ ≤ 10 ^ Decimal.digitLimit :=
        Nat.pow_le_pow_right (by decide) (Nat.le_trans (length_le_of_whole hw) (by decide))

private theorem encode_whole {d : Decimal.Pointed} (hl : Decimal.Leads d.digits) (hd : ∀ n ∈ d.digits, n < 10)
    (hw : (d.digits.length : Int) ≤ d.point ∧ d.point ≤ canonicalStyle.high) (negative : Bool) :
    encode (spelledNumber negative d) =
      .ok ((if negative then lit "-" else []) ++ d.layout canonicalStyle) := by
  obtain ⟨n, hn⟩ : ∃ n, n = Decimal.value d.digits * 10 ^ (d.point - d.digits.length).toNat := ⟨_, rfl⟩
  have hpos : 0 < n := by
    rw [hn]
    exact Nat.mul_pos (Nat.pos_of_ne_zero (Decimal.value_ne_zero hl hd)) (Nat.pow_pos (by decide))
  have hs : spelledNumber negative d = .int (if negative then -(n : Int) else n) := by
    rw [spelledNumber]
    dsimp only
    rw [if_pos hw, hn, Nat.pow_eq]
  have ho : Decimal.isOversized (if negative then -(n : Int) else n) = false := by
    apply isOversized_of_whole hd hw
    rw [← hn]
    split <;> omega
  rw [hs, encode, encodeInt, ho, if_neg (by decide), ← ofNat_of_whole hl hd hw, ← hn, Decimal.ofInt]
  cases negative with
  | true =>
    have hneg : -(n : Int) < 0 := by omega
    have habs : (-(n : Int)).natAbs = n := by omega
    rw [if_pos rfl, if_pos hneg, habs]
    rfl
  | false =>
    have hneg : ¬(n : Int) < 0 := by omega
    have hno : ¬false = true := by decide
    rw [if_neg hno, if_neg hno, if_neg hneg, Int.natAbs_natCast, List.nil_append]

theorem encode_rereadFloat {x : Binary64} {t : Text} (h : encodeFloat x = .ok t) : encode (rereadFloat x) = .ok t := by
  rw [encodeFloat] at h
  by_cases hf : x.isFinite = true
  · by_cases hz : x.isZero = true
    · simp only [hf, hz, Bool.not_true, Bool.false_eq_true, if_false, if_true, Except.ok.injEq] at h
      rw [rereadFloat, if_pos hz, encode, encodeInt, isOversized_zero, if_neg (by decide), ofInt_zero, h]
    · have hzero := Bool.eq_false_iff.mpr hz
      simp only [hf, hz, Bool.not_true, Bool.false_eq_true, if_false, Except.ok.injEq] at h
      rw [rereadFloat, if_neg hz]
      by_cases hw : (x.shortest.digits.length : Int) ≤ x.shortest.point ∧ x.shortest.point ≤ canonicalStyle.high
      · rw [encode_whole (Binary64.leads_shortest hzero) (fun _ => Binary64.lt_ten_of_mem_shortest) hw, h]
      · have hs : spelledNumber x.isNegative x.shortest = .float x := by
          rw [spelledNumber]
          dsimp only
          rw [if_neg hw, Binary64.ofDecimal_shortest hf hzero]
        rw [hs, encode, encodeFloat, hf, if_neg (by decide), if_neg hz, h]
  · simp [hf] at h

theorem map_fst_rereadFields (fs : List (Value × Value)) : (rereadFields fs).map Prod.fst = fs.map Prod.fst := by
  induction fs with
  | nil => rw [rereadFields]
  | cons f fs ih =>
    obtain ⟨k, v⟩ := f
    rw [rereadFields, rereadField, List.map_cons, List.map_cons, ih]

private theorem encodeValues_map (ps : List Field) :
    encodeValues (ps.map fun p => (.text p.key, p.value)) = ps.map fun p => encode p.value := by
  induction ps with
  | nil => rw [List.map_nil, encodeValues, List.map_nil]
  | cons p ps ih => rw [List.map_cons, encodeValues, encodeValue, ih, List.map_cons]

private theorem mapM_encodeKey_map {ps : List Field} (h : ∀ p ∈ ps, p.key.isWellFormed = true) :
    (ps.map fun p => ((.text p.key, p.value) : Value × Value)).mapM (fun f => encodeKey f.1) =
      .ok (ps.map fun p => quote p.key) := by
  induction ps with
  | nil => rfl
  | cons p ps ih =>
    have hkey : encodeKey (.text p.key) = .ok (quote p.key) := by
      rw [encodeKey, encodeText, if_pos (h p List.mem_cons_self)]
    rw [List.map_cons, List.mapM_cons, hkey, ih fun q hq => h q (List.mem_cons_of_mem p hq)]
    rfl

theorem pairwise_sortFields {α : Type} (fs : List (Text × α)) :
    (sortFields fs).Pairwise fun f g => Text.le f.1 g.1 = true :=
  List.pairwise_mergeSort (fun a b c => Text.le_trans a.1 b.1 c.1) (fun a b => Text.le_total a.1 b.1) fs

private theorem sortFields_of_pairwise {α : Type} {fs : List (Text × α)}
    (h : fs.Pairwise fun f g => Text.le f.1 g.1 = true) : sortFields fs = fs := List.mergeSort_of_pairwise h

private theorem sortFields_keyed (ps : List Field) :
    sortFields (((sortFields (ps.map Field.keyed)).map Prod.snd).map Field.keyed) =
      sortFields (ps.map Field.keyed) := by
  have hk : ((sortFields (ps.map Field.keyed)).map Prod.snd).map Field.keyed = sortFields (ps.map Field.keyed) := by
    rw [List.map_map]
    conv_rhs => rw [← List.map_id (sortFields (ps.map Field.keyed))]
    apply List.map_congr_left
    intro f hf
    obtain ⟨p, -, rfl⟩ := List.mem_map.mp (mem_sortFields.mp hf)
    rfl
  rw [hk, sortFields_of_pairwise (pairwise_sortFields _)]

/-- A map whose values are read as values with the same texts is read as a map with the same text. -/
private theorem encode_reread_map {fs : List (Value × Value)} {ps : List Field}
    (hk : fs.mapM (fun f => encodeKey f.1) = .ok (ps.map fun p => quote p.key))
    (hv : encodeValues fs = ps.map fun p => .ok p.text)
    (hr : rereadFields fs = ps.map fun p => (.text p.key, p.value))
    (hp : ∀ p ∈ ps, p.key.isWellFormed = true ∧ encode p.value = .ok p.text)
    (hu : (fs.map Prod.fst).Pairwise fun k l => k.same l = false) :
    encode (reread (.map fs)) = encode (.map fs) := by
  obtain ⟨qs, hqs⟩ : ∃ qs, qs = (sortFields (ps.map Field.keyed)).map Prod.snd := ⟨_, rfl⟩
  have hperm : qs.Perm ps := by
    have hs := (List.mergeSort_perm (ps.map Field.keyed) fun f g => Text.le f.1 g.1).map Prod.snd
    rw [List.map_map] at hs
    rw [hqs]
    exact hs.trans (.of_eq (List.map_id' ps))
  have hunique : ((qs.map fun q => ((.text q.key, q.value) : Value × Value)).map Prod.fst).Pairwise
      fun k l => k.same l = false := by
    rw [← map_fst_rereadFields, hr, List.map_map] at hu
    have hn := (Value.pairwise_same_iff (ps.map Field.key)).mp (by rwa [List.map_map])
    have hm := (Value.pairwise_same_iff (qs.map Field.key)).mpr ((hperm.map Field.key).nodup_iff.mpr hn)
    rw [List.map_map] at hm ⊢
    exact hm
  have hq : ∀ q ∈ qs, q.key.isWellFormed = true ∧ encode q.value = .ok q.text := fun q hm => hp q (hperm.mem_iff.mp hm)
  have hvalues : encodeValues (qs.map fun q => (.text q.key, q.value)) = qs.map fun q => .ok q.text := by
    rw [encodeValues_map]
    exact List.map_congr_left fun q hm => (hq q hm).2
  have hread : reread (.map fs) = .map (qs.map fun q => (.text q.key, q.value)) := by
    have hs := sortByKey_eq ps
    rw [reread, hr, hs, ← Value.ofFields_of_unique hunique, hqs, List.map_map]
    rfl
  rw [hread, encode_map_eq (mapM_encodeKey_map fun q hm => (hq q hm).1) hvalues, encode_map_eq hk hv, hqs,
    sortFields_keyed]

theorem hereditary_true : Hereditary fun _ _ => True where
  null := trivial
  bool _ := trivial
  int _ _ := trivial
  float _ _ _ := trivial
  text _ _ := trivial
  list _ _ := trivial
  map _ _ := trivial

mutual
/-- The value that a canonical text spells has that text. -/
theorem encode_reread : ∀ (v : Value), hasUniqueKeys v = true → ∀ t, encode v = .ok t → encode (reread v) = .ok t
  | .null | .bool _ | .int _ | .text _ | .bytes _ | .object _ => by
    intro _ t ht
    simpa only [reread] using ht
  | .float x => by
    intro _ t ht
    rw [encode] at ht
    rw [reread]
    exact encode_rereadFloat ht
  | .list xs | .tuple xs => by
    intro hu t ht
    rw [hasUniqueKeys] at hu
    rw [encode, Fault.map_eq_ok_iff] at ht
    obtain ⟨ts, hts, rfl⟩ := ht
    rw [reread, encode, encodeItems_reread xs hu ts hts]
    rfl
  | .map fs => by
    intro hu t ht
    obtain ⟨hkeys, hvalues⟩ := Value.hasUniqueKeys_map hu
    have he := ht
    rw [encode, Fault.bind_eq_ok_iff] at he
    obtain ⟨keys, hk, he⟩ := he
    obtain ⟨ts, hw, -⟩ := Fault.bind_eq_ok_iff.mp he
    obtain ⟨ps, rfl, hps, hr, hp⟩ := hereditary_true.of_encodeFields fs keys hk fun r hm =>
      exists_of_mapM_writeField hw (mem_sortFields.mpr hm)
    have hsame := encodeValues_reread fs hvalues fun r hm => by
      rw [hps] at hm
      obtain ⟨p, -, rfl⟩ := List.mem_map.mp hm
      exact ⟨p.text, rfl⟩
    rw [hr, encodeValues_map, hps] at hsame
    rw [← ht]
    exact encode_reread_map hk hps hr (fun p hm => ⟨(hp p hm).1, List.map_inj_left.mp hsame p hm⟩) hkeys

private theorem encodeItems_reread : ∀ (xs : List Value), haveUniqueKeys xs = true → ∀ ts, encodeItems xs = .ok ts →
    encodeItems (rereadItems xs) = .ok ts
  | [] => by
    intro _ ts hts
    rwa [rereadItems]
  | x :: xs => by
    intro hu ts hts
    obtain ⟨hx, hxs⟩ := Value.haveUniqueKeys_cons hu
    rw [encodeItems, Fault.bind_eq_ok_iff] at hts
    obtain ⟨t, ht, hts⟩ := hts
    obtain ⟨us, hus, hts⟩ := Fault.bind_eq_ok_iff.mp hts
    rw [rereadItems, encodeItems, encode_reread x hx t ht, encodeItems_reread xs hxs us hus]
    exact hts

private theorem encodeValues_reread : ∀ (fs : List (Value × Value)), fieldsHaveUniqueKeys fs = true →
    (∀ r ∈ encodeValues fs, ∃ t, r = .ok t) → encodeValues (rereadFields fs) = encodeValues fs
  | [] => by
    intro _ _
    rw [rereadFields]
  | (k, v) :: fs => by
    intro hu hr
    obtain ⟨hv, hfs⟩ := Value.fieldsHaveUniqueKeys_cons hu
    rw [encodeValues, encodeValue] at hr
    obtain ⟨t, ht⟩ := hr _ List.mem_cons_self
    rw [rereadFields, rereadField, encodeValues, encodeValue, encodeValues, encodeValue, encode_reread v hv t ht, ht,
      encodeValues_reread fs hfs fun r hm => hr r (List.mem_cons_of_mem _ hm)]
end

end Canonical

end AuditTrail
