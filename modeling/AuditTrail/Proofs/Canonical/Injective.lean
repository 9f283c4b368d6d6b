import AuditTrail.Proofs.Canonical.SameContent
import Mathlib.Logic.Relation

/-!
# Canonical text tells contents apart

A canonical text is read as one value only. So two values with one text spell one value, and from there they have
the same content (`sameContent_of_reread`), going through both values at once: the members of sequences in their
order, and the fields of maps in the order of the first map. With the other direction this says what canonical
text identifies (`encode_eq_iff_sameContent`).
-/

namespace AuditTrail

namespace Canonical

open Value (hasUniqueKeys haveUniqueKeys fieldsHaveUniqueKeys SameContent SameItems SameFields SameField Reorders)

/-- The value has a canonical text, and no map in it holds a key twice. -/
def IsEncodable (v : Value) : Prop := v.hasUniqueKeys = true ∧ ∃ t, encode v = .ok t

private theorem haveUniqueKeys_iff {xs : List Value} : haveUniqueKeys xs = true ↔ ∀ x ∈ xs, x.hasUniqueKeys = true := by
  induction xs with
  | nil => simp [haveUniqueKeys]
  | cons x xs ih => rw [haveUniqueKeys, Bool.and_eq_true, ih, List.forall_mem_cons]

private theorem fieldsHaveUniqueKeys_iff {fs : List (Value × Value)} :
    fieldsHaveUniqueKeys fs = true ↔ ∀ f ∈ fs, f.2.hasUniqueKeys = true := by
  induction fs with
  | nil => simp [fieldsHaveUniqueKeys]
  | cons f fs ih =>
    obtain ⟨k, v⟩ := f
    rw [fieldsHaveUniqueKeys, Value.fieldHasUniqueKeys, Bool.and_eq_true, ih, List.forall_mem_cons]

theorem exists_encodeItems_iff {xs : List Value} :
    (∃ ts, encodeItems xs = .ok ts) ↔ ∀ x ∈ xs, ∃ t, encode x = .ok t := by
  induction xs with
  | nil => simp [encodeItems]
  | cons x xs ih =>
    rw [List.forall_mem_cons, ← ih]
    constructor
    · rintro ⟨ts, h⟩
      rw [encodeItems, Fault.bind_eq_ok_iff] at h
      obtain ⟨t, ht, h⟩ := h
      obtain ⟨us, hus, -⟩ := Fault.bind_eq_ok_iff.mp h
      exact ⟨⟨t, ht⟩, us, hus⟩
    · rintro ⟨⟨t, ht⟩, us, hus⟩
      exact ⟨t :: us, by rw [encodeItems, ht, hus]; rfl⟩

theorem exists_forall₂_iff {α β : Type} {R : α → β → Prop} {xs : List α} :
    (∃ ys, List.Forall₂ R xs ys) ↔ ∀ x ∈ xs, ∃ y, R x y := by
  induction xs with
  | nil => simp
  | cons x xs ih =>
    rw [List.forall_mem_cons, ← ih]
    constructor
    · rintro ⟨_, h⟩
      cases h with
      | cons hx hs => exact ⟨⟨_, hx⟩, _, hs⟩
    · rintro ⟨⟨y, hy⟩, ys, hs⟩
      exact ⟨y :: ys, .cons hy hs⟩

private theorem isEncodable_list_iff {xs : List Value} : IsEncodable (.list xs) ↔ ∀ x ∈ xs, IsEncodable x := by
  have he : (∃ t, encode (.list xs) = .ok t) ↔ ∃ ts, encodeItems xs = .ok ts := by
    simp only [encode, Fault.map_eq_ok_iff]
    exact ⟨fun ⟨_, ts, h, _⟩ => ⟨ts, h⟩, fun ⟨ts, h⟩ => ⟨_, ts, h, rfl⟩⟩
  rw [IsEncodable, hasUniqueKeys, haveUniqueKeys_iff, he, exists_encodeItems_iff]
  exact forall₂_and.symm

private theorem isEncodable_tuple_iff {xs : List Value} : IsEncodable (.tuple xs) ↔ ∀ x ∈ xs, IsEncodable x := by
  rw [← isEncodable_list_iff, IsEncodable, IsEncodable, hasUniqueKeys, hasUniqueKeys, encode, encode]

/-- A map is encodable if its keys are different texts without lone surrogates and its values are encodable. -/
private theorem isEncodable_map_iff {fs : List (Value × Value)} : IsEncodable (.map fs) ↔
    (fs.map Prod.fst).Nodup ∧ ∀ f ∈ fs, (∃ t, f.1 = .text t ∧ t.isWellFormed = true) ∧ IsEncodable f.2 := by
  have hkeys : ∀ {ps}, List.Forall₂ Writes fs ps →
      (((fs.map Prod.fst).Pairwise fun k l => k.same l = false) ↔ (fs.map Prod.fst).Nodup) := by
    intro ps hps
    rw [map_fst_of_writes hps, Value.pairwise_same_iff, List.nodup_map_iff fun _ _ => Value.text.inj]
  constructor
  · rintro ⟨hu, t, ht⟩
    obtain ⟨hunique, hvalues⟩ := Value.hasUniqueKeys_map hu
    obtain ⟨ps, hps, -⟩ := encode_map_eq_ok_iff.mp ht
    refine ⟨(hkeys hps).mp hunique, fun f hf => ?_⟩
    obtain ⟨p, hk, hw, hv⟩ := exists_forall₂_iff.mp ⟨ps, hps⟩ f hf
    exact ⟨⟨p.key, hk, hw⟩, fieldsHaveUniqueKeys_iff.mp hvalues f hf, p.text, hv⟩
  · rintro ⟨hn, h⟩
    have hw : ∀ f ∈ fs, ∃ p, Writes f p := by
      intro f hf
      obtain ⟨⟨k, hk, hwell⟩, -, t, ht⟩ := h f hf
      exact ⟨⟨k, t, f.2⟩, hk, hwell, ht⟩
    obtain ⟨ps, hps⟩ := exists_forall₂_iff.mpr hw
    refine ⟨?_, _, encode_of_writes hps⟩
    rw [hasUniqueKeys, Bool.and_eq_true, decide_eq_true_iff, fieldsHaveUniqueKeys_iff]
    exact ⟨(hkeys hps).mpr hn, fun f hf => (h f hf).2.1⟩

private theorem isEncodable_of_reorders {v w : Value} (h : Reorders v w) (hv : IsEncodable v) : IsEncodable w := by
  induction h with
  | here hp =>
    rw [isEncodable_map_iff] at hv ⊢
    exact ⟨(hp.map Prod.fst).nodup_iff.mp hv.1, fun f hf => hv.2 f (hp.mem_iff.mpr hf)⟩
  | list xs ys h ih =>
    rw [isEncodable_list_iff, List.forall_mem_append, List.forall_mem_cons] at hv ⊢
    exact ⟨hv.1, ih hv.2.1, hv.2.2⟩
  | tuple xs ys h ih =>
    rw [isEncodable_tuple_iff, List.forall_mem_append, List.forall_mem_cons] at hv ⊢
    exact ⟨hv.1, ih hv.2.1, hv.2.2⟩
  | field fs gs k h ih =>
    rw [isEncodable_map_iff, List.forall_mem_append, List.forall_mem_cons] at hv ⊢
    obtain ⟨hn, hfs, ⟨hk, hx⟩, hgs⟩ := hv
    rw [List.map_append, List.map_cons] at hn ⊢
    exact ⟨hn, hfs, ⟨hk, ih hx⟩, hgs⟩

private theorem encode_of_reorders {v w : Value} (h : Relation.ReflTransGen Reorders v w) (hv : IsEncodable v) :
    IsEncodable w ∧ encode w = encode v := by
  induction h with
  | refl => exact ⟨hv, rfl⟩
  | tail _ hstep ih =>
    obtain ⟨hmid, he⟩ := ih
    obtain ⟨t, ht⟩ := hmid.2
    refine ⟨isEncodable_of_reorders hstep hmid, ?_⟩
    rw [← he, ht]
    exact encode_of_sameContent _ hmid.1 _ t hstep.sameContent ht

private theorem genus_rereadFloat (x : Binary64) : (rereadFloat x).genus = .number := by
  rw [rereadFloat, spelledNumber]
  split
  · rfl
  · dsimp only
    split <;> rfl

private theorem genus_reread (v : Value) : (reread v).genus = v.genus := by
  cases v with
  | float x =>
    rw [reread]
    exact genus_rereadFloat x
  | list xs | tuple xs | map fs =>
    rw [reread]
    rfl
  | _ => simp only [reread]

private theorem reread_eq_self {v : Value} (h : v.genus = .null ∨ v.genus = .boolean ∨ v.genus = .text) :
    reread v = v := by
  cases v with
  | null | bool _ | text _ => simp only [reread]
  | _ => simp [Value.genus] at h

private theorem exists_items_of_genus {v : Value} (h : v.genus = .sequence) (hv : IsEncodable v) :
    ∃ xs, v.items? = some xs ∧ reread v = .list (rereadItems xs) ∧ ∀ x ∈ xs, IsEncodable x := by
  cases v with
  | list xs => exact ⟨xs, rfl, by rw [reread], isEncodable_list_iff.mp hv⟩
  | tuple xs => exact ⟨xs, rfl, by rw [reread], isEncodable_tuple_iff.mp hv⟩
  | _ => simp [Value.genus] at h

private theorem exists_fields_of_genus {v : Value} (h : v.genus = .map) : ∃ fs, v = .map fs := by
  cases v with
  | map fs => exact ⟨fs, rfl⟩
  | _ => simp [Value.genus] at h

private theorem sortByKey_perm (fs : List (Value × Value)) : (sortByKey fs).Perm fs := by
  have hs := (List.mergeSort_perm (fs.map fun f => (keyText f.1, f)) fun f g => Text.le f.1 g.1).map Prod.snd
  rw [List.map_map] at hs
  exact hs.trans (.of_eq (List.map_id' fs))

private theorem rereadFields_eq (fs : List (Value × Value)) : rereadFields fs = fs.map rereadField := by
  induction fs with
  | nil => rw [rereadFields, List.map_nil]
  | cons f fs ih => rw [rereadFields, ih, List.map_cons]

private theorem reread_map {fs : List (Value × Value)} (h : IsEncodable (.map fs)) :
    reread (.map fs) = .map (sortByKey (rereadFields fs)) := by
  obtain ⟨hu, t, ht⟩ := h
  obtain ⟨ps, hps, -⟩ := encode_map_eq_ok_iff.mp ht
  have hp := (sortByKey_perm (rereadFields fs)).map Prod.fst
  rw [map_fst_rereadFields, map_fst_of_writes hps] at hp
  obtain ⟨ts, hts, hperm⟩ := (congrFun₂ (List.eq_map_comp_perm _) _ _).mpr hp
  have hn := nodup_of_writes hps (Value.hasUniqueKeys_map hu).1
  rw [reread, Value.ofFields_of_unique]
  rw [hts, Value.pairwise_same_iff]
  exact hperm.nodup_iff.mpr hn

mutual
/-- Values whose texts spell one value have the same content. -/
theorem sameContent_of_reread : ∀ v : Value, IsEncodable v → ∀ w : Value, IsEncodable w → reread v = reread w →
    v.SameContent w
  | .null | .bool _ | .text _ => by
    intro _ w _ h
    have hg := congrArg Value.genus h
    rw [genus_reread, genus_reread] at hg
    rw [reread_eq_self (by simp [Value.genus]), reread_eq_self (by rw [← hg]; simp [Value.genus])] at h
    simp only [SameContent]
    exact h
  | .bytes _ | .object _ => by
    intro hv
    obtain ⟨-, t, ht⟩ := hv
    simp [encode] at ht
  | .int i => by
    intro _ w hw h
    have hg := congrArg Value.genus h
    rw [genus_reread, genus_reread] at hg
    simp only [SameContent]
    cases w with
    | int j =>
      simp only [reread] at h
      exact h
    | float y =>
      obtain ⟨-, t, ht⟩ := hw
      simp only [reread] at h
      rw [encode] at ht
      have he := encode_rereadFloat ht
      rw [← h, encode] at he
      rw [(encodeInt_eq_ok he).2] at ht
      exact ht
    | _ => simp [Value.genus] at hg
  | .float x => by
    intro hv w hw h
    have hg := congrArg Value.genus h
    rw [genus_reread, genus_reread] at hg
    obtain ⟨-, t, ht⟩ := hv
    rw [encode] at ht
    simp only [SameContent]
    cases w with
    | int j =>
      simp only [reread] at h
      have he := encode_rereadFloat ht
      rw [h, encode] at he
      rw [(encodeInt_eq_ok he).2] at ht
      exact ht
    | float y =>
      obtain ⟨-, u, hu⟩ := hw
      rw [encode] at hu
      simp only [reread] at h
      exact Binary64.eq_of_rereadFloat (isFinite_of_encodeFloat ht) (isFinite_of_encodeFloat hu) h
    | _ => simp [Value.genus] at hg
  | .list xs => by
    intro hv w hw h
    have hg := congrArg Value.genus h
    rw [genus_reread, genus_reread] at hg
    obtain ⟨ys, hys, hr, hy⟩ := exists_items_of_genus hg.symm hw
    rw [hr, reread, Value.list.injEq] at h
    rw [SameContent]
    exact ⟨ys, hys, sameItems_of_reread xs (isEncodable_list_iff.mp hv) ys hy h⟩
  | .tuple xs => by
    intro hv w hw h
    have hg := congrArg Value.genus h
    rw [genus_reread, genus_reread] at hg
    obtain ⟨ys, hys, hr, hy⟩ := exists_items_of_genus hg.symm hw
    rw [hr, reread, Value.list.injEq] at h
    rw [SameContent]
    exact ⟨ys, hys, sameItems_of_reread xs (isEncodable_tuple_iff.mp hv) ys hy h⟩
  | .map fs => by
    intro hv w hw h
    have hg := congrArg Value.genus h
    rw [genus_reread, genus_reread] at hg
    obtain ⟨gs, rfl⟩ := exists_fields_of_genus hg.symm
    rw [reread_map hv, reread_map hw, Value.map.injEq] at h
    -- the fields of the second map in the order of the first
    have hp : (rereadFields fs).Perm (rereadFields gs) :=
      (sortByKey_perm _).symm.trans (h ▸ sortByKey_perm _)
    rw [rereadFields_eq gs] at hp
    obtain ⟨hs, hr, hperm⟩ := (congrFun₂ (List.eq_map_comp_perm _) _ _).mpr hp
    have hf := (isEncodable_map_iff.mp hv).2
    have hg := (isEncodable_map_iff.mp hw).2
    rw [SameContent]
    exact ⟨gs, hs, rfl, hperm, sameFields_of_reread fs (fun f hm => (hf f hm).2) hs
      (fun g hm => (hg g (hperm.mem_iff.mp hm)).2) (hr.trans (rereadFields_eq hs).symm)⟩

private theorem sameItems_of_reread : ∀ xs : List Value, (∀ x ∈ xs, IsEncodable x) → ∀ ys : List Value,
    (∀ y ∈ ys, IsEncodable y) → rereadItems xs = rereadItems ys → SameItems xs ys
  | [] => by
    intro _ ys _ h
    rw [SameItems]
    cases ys with
    | nil => rfl
    | cons y ys => simp [rereadItems] at h
  | x :: xs => by
    intro hx ys hy h
    rw [SameItems]
    cases ys with
    | nil => simp [rereadItems] at h
    | cons y ys =>
      rw [rereadItems, rereadItems, List.cons.injEq] at h
      rw [List.forall_mem_cons] at hx hy
      exact ⟨y, ys, rfl, sameContent_of_reread x hx.1 y hy.1 h.1, sameItems_of_reread xs hx.2 ys hy.2 h.2⟩

private theorem sameFields_of_reread : ∀ fs : List (Value × Value), (∀ f ∈ fs, IsEncodable f.2) →
    ∀ gs : List (Value × Value), (∀ g ∈ gs, IsEncodable g.2) → rereadFields fs = rereadFields gs → SameFields fs gs
  | [] => by
    intro _ gs _ h
    rw [SameFields]
    cases gs with
    | nil => rfl
    | cons g gs => simp [rereadFields] at h
  | (k, v) :: fs => by
    intro hf gs hg h
    rw [SameFields]
    cases gs with
    | nil => simp [rereadFields] at h
    | cons g gs =>
      obtain ⟨l, w⟩ := g
      rw [rereadFields, rereadField, rereadFields, rereadField, List.cons.injEq, Prod.mk.injEq] at h
      rw [List.forall_mem_cons] at hf hg
      refine ⟨(l, w), gs, rfl, ?_, sameFields_of_reread fs hf.2 gs hg.2 h.2⟩
      rw [SameField]
      exact ⟨h.1.1, sameContent_of_reread v hf.1 w hg.1 h.1.2⟩
end

/-- Of values without a key twice in a map, canonical text tells apart those of different content, and only those:
null, booleans, numbers, texts, sequences and maps never share a text, and another order of the fields of any map
changes nothing. -/
theorem encode_eq_iff_sameContent {v w : Value} (hv : v.hasUniqueKeys = true) (hw : w.hasUniqueKeys = true)
    {t u : Text} (ht : encode v = .ok t) (hu : encode w = .ok u) :
    (t = u ↔ v.SameContent w) ∧ (v.genus ≠ w.genus → t ≠ u) ∧
      ∀ x, Relation.ReflTransGen Reorders v x → encode x = .ok t := by
  have hiff : t = u ↔ v.SameContent w := by
    constructor
    · rintro rfl
      exact sameContent_of_reread v ⟨hv, t, ht⟩ w ⟨hw, t, hu⟩
        (Json.ReadsAs.unique (Json.readsAs_of_encode ht) (Json.readsAs_of_encode hu))
    · intro h
      exact Except.ok.inj ((encode_of_sameContent v hv w t h ht).symm.trans hu)
  refine ⟨hiff, ?_, ?_⟩
  · intro hg he
    exact hg (Value.genus_eq_of_sameContent (hiff.mp he))
  · intro x hx
    rw [(encode_of_reorders hx ⟨hv, t, ht⟩).2, ht]

/-- A negative zero behind a tuple, and a list in front of the integer zero. -/
theorem encode_eq_iff_sameContent_of_zeros :
    let zero : Value := .float ⟨0x8000000000000000⟩
    let v : Value := .map [(.text (lit "b"), zero), (.text (lit "a"), .tuple [.null])]
    let w : Value := .map [(.text (lit "a"), .list [.null]), (.text (lit "b"), .int 0)]
    let x : Value := .map [(.text (lit "a"), .tuple [.null]), (.text (lit "b"), zero)]
    ∃ t, encode v = .ok t ∧ encode w = .ok t ∧ encode x = .ok t := by
  intro zero v w x
  have hzero : encode (.int 0) = .ok (lit "0") := by
    rw [encode, encodeInt, isOversized_zero, if_neg (by decide), ofInt_zero]
  have hv : ∀ f ∈ [(Value.text (lit "b"), zero), (.text (lit "a"), .tuple [.null])], ∃ p, Writes f p := by
    simp only [List.mem_cons, List.not_mem_nil, or_false, forall_eq_or_imp, forall_eq]
    exact ⟨⟨⟨lit "b", lit "0", .null⟩, rfl, rfl, rfl⟩, ⟨lit "a", lit "[null]", .null⟩, rfl, rfl, rfl⟩
  have hw : ∀ f ∈ [(Value.text (lit "a"), .list [.null]), (.text (lit "b"), .int 0)], ∃ p, Writes f p := by
    simp only [List.mem_cons, List.not_mem_nil, or_false, forall_eq_or_imp, forall_eq]
    exact ⟨⟨⟨lit "a", lit "[null]", .null⟩, rfl, rfl, rfl⟩, ⟨lit "b", lit "0", .null⟩, rfl, rfl, hzero⟩
  obtain ⟨ps, hps⟩ := exists_forall₂_iff.mpr hv
  obtain ⟨qs, hqs⟩ := exists_forall₂_iff.mpr hw
  have hnumber : zero.SameContent (.int 0) := by
    simp only [zero, SameContent, Value.SameScalar, ofInt_zero]
    rfl
  have hitems : (Value.tuple [.null]).SameContent (.list [.null]) := by
    rw [SameContent]
    exact ⟨_, rfl, .refl [.null]⟩
  have hsame : v.SameContent w := by
    rw [SameContent]
    refine ⟨_, _, rfl, .swap _ _ [], ?_⟩
    simp only [SameFields, SameField]
    exact ⟨_, _, rfl, ⟨rfl, hnumber⟩, _, _, rfl, ⟨rfl, hitems⟩, rfl⟩
  have ht := encode_of_writes hps
  have hu := encode_of_writes hqs
  obtain ⟨hiff, -, hreorders⟩ := encode_eq_iff_sameContent (by decide) (by decide) ht hu
  exact ⟨mapText ps, ht, hiff.mpr hsame ▸ hu, hreorders x (.single (.here (.swap _ _ [])))⟩

end Canonical

end AuditTrail
