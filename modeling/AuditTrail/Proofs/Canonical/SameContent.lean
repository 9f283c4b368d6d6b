import AuditTrail.Proofs.Canonical.NumberTexts
import AuditTrail.Proofs.Json.Reading
import Mathlib.Data.List.Perm.Basic

/-!
# Values of the same content

Canonical text does not tell a tuple from a list, nor one order of a map's fields from another, nor two numbers
that are written alike: values that differ in such things only have one text (`Canonical.encode_of_sameContent`).
A map's text does not depend on the order of its fields because no two of them are sorted as equals.
-/

namespace AuditTrail

namespace Value

def items? : Value → Option (List Value)
  | .list xs => some xs
  | .tuple xs => some xs
  | _ => none

/-- The same value, or two numbers that are written alike: both zeros of floating point numbers, or an integer and
a floating point number whose text is that of the integer. -/
def SameScalar : Value → Value → Prop
  | .int i, .float y => Canonical.encodeFloat y = .ok (Decimal.ofInt i)
  | .float x, .int j => Canonical.encodeFloat x = .ok (Decimal.ofInt j)
  | .float x, .float y => x = y ∨ (x.isZero = true ∧ y.isZero = true)
  | v, w => v = w

mutual
/-- The same value up to lists for tuples, the order of the fields of maps, and numbers that are written alike. -/
def SameContent : Value → Value → Prop
  | .list xs, w => ∃ ys, w.items? = some ys ∧ SameItems xs ys
  | .tuple xs, w => ∃ ys, w.items? = some ys ∧ SameItems xs ys
  | .map fs, w => ∃ gs hs, w = .map gs ∧ hs.Perm gs ∧ SameFields fs hs
  | v, w => SameScalar v w
termination_by structural v => v

def SameItems : List Value → List Value → Prop
  | [], ys => ys = []
  | x :: xs, ys => ∃ y zs, ys = y :: zs ∧ SameContent x y ∧ SameItems xs zs
termination_by structural xs => xs

/-- Fields of the same keys and of the same content, one by one. -/
def SameFields : List (Value × Value) → List (Value × Value) → Prop
  | [], gs => gs = []
  | f :: fs, gs => ∃ g hs, gs = g :: hs ∧ SameField f g ∧ SameFields fs hs
termination_by structural fs => fs

def SameField : Value × Value → Value × Value → Prop
  | (k, v), g => k = g.1 ∧ SameContent v g.2
termination_by structural f => f
end

/-- What a value is in JSON. -/
inductive Genus where
  | null
  | boolean
  | number
  | text
  | sequence
  | map
  | foreign
deriving DecidableEq

def genus : Value → Genus
  | .null => .null
  | .bool _ => .boolean
  | .int _ => .number
  | .float _ => .number
  | .text _ => .text
  | .list _ => .sequence
  | .tuple _ => .sequence
  | .map _ => .map
  | .bytes _ => .foreign
  | .object _ => .foreign

/-- One map somewhere inside a value gets its fields in another order. -/
inductive Reorders : Value → Value → Prop
  | here {fs gs : List (Value × Value)} (h : fs.Perm gs) : Reorders (.map fs) (.map gs)
  | list (xs ys : List Value) {v w : Value} (h : Reorders v w) : Reorders (.list (xs ++ v :: ys)) (.list (xs ++ w :: ys))
  | tuple (xs ys : List Value) {v w : Value} (h : Reorders v w) :
    Reorders (.tuple (xs ++ v :: ys)) (.tuple (xs ++ w :: ys))
  | field (fs gs : List (Value × Value)) (k : Value) {v w : Value} (h : Reorders v w) :
    Reorders (.map (fs ++ (k, v) :: gs)) (.map (fs ++ (k, w) :: gs))

private theorem genus_eq_of_items {v : Value} {xs : List Value} (h : v.items? = some xs) : v.genus = .sequence := by
  cases v with
  | list _ => rfl
  | tuple _ => rfl
  | _ => simp [items?] at h

theorem genus_eq_of_sameContent {v w : Value} (h : v.SameContent w) : v.genus = w.genus := by
  cases v with
  | list xs =>
    rw [SameContent] at h
    obtain ⟨ys, hw, -⟩ := h
    exact (genus_eq_of_items hw).symm
  | tuple xs =>
    rw [SameContent] at h
    obtain ⟨ys, hw, -⟩ := h
    exact (genus_eq_of_items hw).symm
  | map fs =>
    rw [SameContent] at h
    obtain ⟨gs, hs, rfl, -, -⟩ := h
    rfl
  | int i =>
    simp only [SameContent] at h
    cases w with
    | float y => rfl
    | _ => exact congrArg genus h
  | float x =>
    simp only [SameContent] at h
    cases w with
    | int j => rfl
    | float y => rfl
    | _ => exact congrArg genus h
  | _ =>
    simp only [SameContent] at h
    exact congrArg genus h

mutual
private theorem SameContent.refl : ∀ v : Value, v.SameContent v
  | .null | .bool _ | .int _ | .text _ | .bytes _ | .object _ => by simp only [SameContent, SameScalar]
  | .float x => by
    simp only [SameContent]
    exact .inl rfl
  | .list xs | .tuple xs => by
    simp only [SameContent]
    exact ⟨xs, rfl, SameItems.refl xs⟩
  | .map fs => by
    simp only [SameContent]
    exact ⟨fs, fs, rfl, .refl fs, SameFields.refl fs⟩

theorem SameItems.refl : ∀ xs : List Value, SameItems xs xs
  | [] => by rw [SameItems]
  | x :: xs => by
    rw [SameItems]
    exact ⟨x, xs, rfl, SameContent.refl x, SameItems.refl xs⟩

private theorem SameFields.refl : ∀ fs : List (Value × Value), SameFields fs fs
  | [] => by rw [SameFields]
  | (k, v) :: fs => by
    rw [SameFields]
    refine ⟨(k, v), fs, rfl, ?_, SameFields.refl fs⟩
    rw [SameField]
    exact ⟨rfl, SameContent.refl v⟩
end

private theorem SameItems.replace (xs ys : List Value) {v w : Value} (h : v.SameContent w) :
    SameItems (xs ++ v :: ys) (xs ++ w :: ys) := by
  induction xs with
  | nil =>
    rw [List.nil_append, SameItems]
    exact ⟨w, ys, rfl, h, .refl ys⟩
  | cons x xs ih =>
    rw [List.cons_append, SameItems]
    exact ⟨x, xs ++ w :: ys, rfl, .refl x, ih⟩

private theorem SameFields.replace (fs gs : List (Value × Value)) (k : Value) {v w : Value} (h : v.SameContent w) :
    SameFields (fs ++ (k, v) :: gs) (fs ++ (k, w) :: gs) := by
  induction fs with
  | nil =>
    rw [List.nil_append, SameFields]
    exact ⟨(k, w), gs, rfl, by rw [SameField]; exact ⟨rfl, h⟩, .refl gs⟩
  | cons f fs ih =>
    obtain ⟨l, u⟩ := f
    rw [List.cons_append, SameFields]
    exact ⟨(l, u), fs ++ (k, w) :: gs, rfl, by rw [SameField]; exact ⟨rfl, .refl u⟩, ih⟩

theorem Reorders.sameContent {v w : Value} (h : Reorders v w) : v.SameContent w := by
  induction h with
  | here hp =>
    rename_i fs gs
    rw [SameContent]
    exact ⟨gs, fs, rfl, hp, .refl fs⟩
  | list xs ys h ih =>
    rw [SameContent]
    exact ⟨_, rfl, .replace xs ys ih⟩
  | tuple xs ys h ih =>
    rw [SameContent]
    exact ⟨_, rfl, .replace xs ys ih⟩
  | field fs gs k h ih =>
    rw [SameContent]
    exact ⟨_, _, rfl, .refl _, .replace fs gs k ih⟩

end Value

namespace Json

theorem ReadsAs.unique {t : Text} {v w : Value} (hv : ReadsAs t v) (hw : ReadsAs t w) : v = w := by
  have hends : EndsNumber [] := fun c hc => absurd hc (by simp)
  have h := (hv.read t.length [] (Nat.le_refl _) hends).symm.trans (hw.read t.length [] (Nat.le_refl _) hends)
  rw [Except.ok.injEq, Prod.mk.injEq] at h
  exact h.1

end Json

namespace Canonical

open Value (hasUniqueKeys haveUniqueKeys fieldsHaveUniqueKeys SameContent SameItems SameFields SameField Reorders)

private theorem quote_injective {s t : Text} (h : quote s = quote t) : s = t :=
  Value.text.inj (Json.ReadsAs.unique (h ▸ Json.readsAs_quote s) (Json.readsAs_quote t))

/-- A field of a map is written with a text as its key and the canonical text of its value. -/
def Writes (f : Value × Value) (p : Field) : Prop :=
  f.1 = .text p.key ∧ p.key.isWellFormed = true ∧ encode f.2 = .ok p.text

/-- The canonical text of a map of which the fields are known. -/
def mapText (ps : List Field) : Text :=
  braced ((sortFields (ps.map Field.keyed)).map fun f => fieldText f.2.key f.2.text)

private theorem forall₂_writes :
    ∀ (fs : List (Value × Value)) (ps : List Field), encodeValues fs = ps.map (fun p => .ok p.text) →
    rereadFields fs = ps.map (fun p => (.text p.key, p.value)) → (∀ p ∈ ps, p.key.isWellFormed = true) →
    List.Forall₂ Writes fs ps
  | [], ps => by
    intro hv _ _
    cases ps with
    | nil => exact .nil
    | cons p ps => simp [encodeValues] at hv
  | (k, v) :: fs, ps => by
    intro hv hr hw
    cases ps with
    | nil => simp [encodeValues] at hv
    | cons p ps =>
      rw [encodeValues, encodeValue, List.map_cons, List.cons.injEq] at hv
      rw [rereadFields, rereadField, List.map_cons, List.cons.injEq, Prod.mk.injEq] at hr
      exact .cons ⟨hr.1.1, hw p List.mem_cons_self, hv.1⟩
        (forall₂_writes fs ps hv.2 hr.2 fun q hq => hw q (List.mem_cons_of_mem p hq))

theorem encode_of_writes {fs : List (Value × Value)} {ps : List Field} (h : List.Forall₂ Writes fs ps) :
    encode (.map fs) = .ok (mapText ps) := by
  have hp : fs.mapM (fun f => encodeKey f.1) = .ok (ps.map fun p => quote p.key) ∧
      encodeValues fs = ps.map fun p => .ok p.text := by
    induction h with
    | nil => exact ⟨rfl, by rw [encodeValues, List.map_nil]⟩
    | cons hf _ ih =>
      rename_i f p fs ps _
      obtain ⟨k, v⟩ := f
      obtain ⟨hk, hw, ht⟩ := hf
      have hkey : encodeKey k = .ok (quote p.key) := by
        rw [show k = .text p.key from hk, encodeKey, encodeText, if_pos hw]
      refine ⟨?_, ?_⟩
      · rw [List.mapM_cons, hkey, ih.1]
        rfl
      · rw [encodeValues, encodeValue, show encode v = .ok p.text from ht, ih.2, List.map_cons]
  exact encode_map_eq hp.1 hp.2

theorem encode_map_eq_ok_iff {fs : List (Value × Value)} {t : Text} :
    encode (.map fs) = .ok t ↔ ∃ ps, List.Forall₂ Writes fs ps ∧ t = mapText ps := by
  constructor
  · intro h
    have he := h
    rw [encode, Fault.bind_eq_ok_iff] at he
    obtain ⟨keys, hk, he⟩ := he
    obtain ⟨ts, hw, -⟩ := Fault.bind_eq_ok_iff.mp he
    obtain ⟨ps, -, hv, hr, hp⟩ := hereditary_true.of_encodeFields fs keys hk fun r hm =>
      exists_of_mapM_writeField hw (mem_sortFields.mpr hm)
    have hwrites := forall₂_writes fs ps hv hr fun p hm => (hp p hm).1
    exact ⟨ps, hwrites, Except.ok.inj (h.symm.trans (encode_of_writes hwrites))⟩
  · rintro ⟨ps, hw, rfl⟩
    exact encode_of_writes hw

theorem map_fst_of_writes {fs : List (Value × Value)} {ps : List Field} (h : List.Forall₂ Writes fs ps) :
    fs.map Prod.fst = (ps.map Field.key).map Value.text := by
  induction h with
  | nil => rfl
  | cons hf _ ih => rw [List.map_cons, List.map_cons, List.map_cons, hf.1, ih]

theorem nodup_of_writes {fs : List (Value × Value)} {ps : List Field} (h : List.Forall₂ Writes fs ps)
    (hu : (fs.map Prod.fst).Pairwise fun k l => k.same l = false) : (ps.map Field.key).Nodup := by
  rw [map_fst_of_writes h] at hu
  exact (Value.pairwise_same_iff _).mp hu

/-- The order of fields with different keys does not matter to the text. -/
private theorem mapText_of_perm {ps qs : List Field} (h : ps.Perm qs) (hn : (ps.map Field.key).Nodup) :
    mapText ps = mapText qs := by
  have hs : sortFields (ps.map Field.keyed) = sortFields (qs.map Field.keyed) := by
    have hp : (sortFields (ps.map Field.keyed)).Perm (sortFields (qs.map Field.keyed)) :=
      ((List.mergeSort_perm _ _).trans (h.map Field.keyed)).trans (List.mergeSort_perm _ _).symm
    refine hp.eq_of_pairwise ?_ (pairwise_sortFields _) (pairwise_sortFields _)
    intro f g hf hg hfg hgf
    obtain ⟨p, hpm, rfl⟩ := List.mem_map.mp (mem_sortFields.mp hf)
    obtain ⟨q, hqm, rfl⟩ := List.mem_map.mp (mem_sortFields.mp hg)
    have hkey : p.key = q.key := quote_injective (Text.le_antisymm _ _ hfg hgf)
    rw [List.inj_on_of_nodup_map hn hpm (h.mem_iff.mpr hqm) hkey]
  rw [mapText, hs, mapText]

private theorem encode_of_sameScalar {v w : Value} (h : v.SameScalar w) {t : Text} (ht : encode v = .ok t) :
    encode w = .ok t := by
  cases v with
  | int i =>
    cases w with
    | float y =>
      rw [encode] at ht
      rw [encode, (encodeInt_eq_ok ht).2]
      exact h
    | _ => exact (show Value.int i = _ from h) ▸ ht
  | float x =>
    cases w with
    | int j =>
      have he : encodeFloat x = .ok (Decimal.ofInt j) := h
      rw [encode, he] at ht
      rw [encode, encodeInt_of_encodeFloat he, ht]
    | float y =>
      rcases h with rfl | ⟨hx, hy⟩
      · exact ht
      · rwa [encode, encodeFloat_congr_of_isZero hx hy] at ht
    | _ => exact (show Value.float x = _ from h) ▸ ht
  | _ => exact (show _ = w from h) ▸ ht

private theorem encode_of_items {w : Value} {ys : List Value} (h : w.items? = some ys) :
    encode w = (encodeItems ys).map bracketed := by
  cases w with
  | list xs | tuple xs =>
    obtain rfl : xs = ys := Option.some.inj h
    rw [encode]
    rfl
  | _ => simp [Value.items?] at h

mutual
/-- A value of the same content has the same text. -/
theorem encode_of_sameContent : ∀ v : Value, hasUniqueKeys v = true → ∀ (w : Value) (t : Text), v.SameContent w →
    encode v = .ok t → encode w = .ok t
  | .null | .bool _ | .int _ | .float _ | .text _ | .bytes _ | .object _ => by
    intro _ w t h ht
    simp only [SameContent] at h
    exact encode_of_sameScalar h ht
  | .list xs | .tuple xs => by
    intro hu w t h ht
    rw [hasUniqueKeys] at hu
    rw [SameContent] at h
    obtain ⟨ys, hw, hs⟩ := h
    rw [encode, Fault.map_eq_ok_iff] at ht
    obtain ⟨ts, hts, rfl⟩ := ht
    rw [encode_of_items hw, encodeItems_of_sameItems xs hu ys ts hs hts]
    rfl
  | .map fs => by
    intro hu w t h ht
    obtain ⟨hkeys, hvalues⟩ := Value.hasUniqueKeys_map hu
    rw [SameContent] at h
    obtain ⟨gs, hs, rfl, hp, hsame⟩ := h
    obtain ⟨ps, hps, rfl⟩ := encode_map_eq_ok_iff.mp ht
    obtain ⟨qs, hqs, hperm⟩ := List.perm_comp_forall₂ hp.symm (writes_of_sameFields fs hvalues hs ps hsame hps)
    rw [encode_of_writes hqs, mapText_of_perm hperm.symm (nodup_of_writes hps hkeys)]

private theorem encodeItems_of_sameItems : ∀ xs : List Value,
    haveUniqueKeys xs = true → ∀ (ys : List Value) (ts : List Text),
    SameItems xs ys → encodeItems xs = .ok ts → encodeItems ys = .ok ts
  | [] => by
    intro _ ys ts h hts
    rw [SameItems] at h
    rwa [h]
  | x :: xs => by
    intro hu ys ts h hts
    obtain ⟨hx, hxs⟩ := Value.haveUniqueKeys_cons hu
    rw [SameItems] at h
    obtain ⟨y, zs, rfl, hy, hs⟩ := h
    rw [encodeItems, Fault.bind_eq_ok_iff] at hts
    obtain ⟨t, ht, hts⟩ := hts
    obtain ⟨us, hus, hts⟩ := Fault.bind_eq_ok_iff.mp hts
    rw [encodeItems, encode_of_sameContent x hx y t hy ht, encodeItems_of_sameItems xs hxs zs us hs hus]
    exact hts

private theorem writes_of_sameFields : ∀ fs : List (Value × Value), fieldsHaveUniqueKeys fs = true →
    ∀ (gs : List (Value × Value)) (ps : List Field), SameFields fs gs → List.Forall₂ Writes fs ps →
    List.Forall₂ Writes gs ps
  | [] => by
    intro _ gs ps h hps
    rw [SameFields] at h
    rwa [h]
  | (k, v) :: fs => by
    intro hu gs ps h hps
    obtain ⟨hv, hfs⟩ := Value.fieldsHaveUniqueKeys_cons hu
    rw [SameFields] at h
    obtain ⟨g, hs, rfl, hg, hsame⟩ := h
    rw [SameField] at hg
    cases hps with
    | cons hf hps =>
      obtain ⟨hkey, hwell, ht⟩ := hf
      refine .cons ⟨?_, hwell, encode_of_sameContent v hv g.2 _ hg.2 ht⟩ (writes_of_sameFields fs hfs hs _ hsame hps)
      rw [← hg.1]
      exact hkey
end

end Canonical

end AuditTrail
