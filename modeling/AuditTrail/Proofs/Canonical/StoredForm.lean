import AuditTrail.Chain.Link
import AuditTrail.Proofs.Canonical.Oversized

/-!
# Stored forms

A value is stored with lists in the places of its tuples and is otherwise the same (`Value.StoredAs`). This is a normal
form of the values that have a canonical text: the text, and with it every hash, stays as it was, and what is stored is
stored as it is once more. So are its parts (`Canonical.toJson_of_holds`), which is why no tuple is left at any depth.
-/

namespace AuditTrail

namespace Value

/-- The value is no collection of other values. -/
def isScalar : Value → Bool
  | .list _ | .tuple _ | .map _ => false
  | _ => true

mutual
/-- The second value is the first one with lists in the places of its tuples. The maps have the same keys in the same
order, and scalars are the same. -/
inductive StoredAs : Value → Value → Prop where
  | scalar {v : Value} : v.isScalar = true → StoredAs v v
  | list {xs ys : List Value} : ItemsStoredAs xs ys → StoredAs (.list xs) (.list ys)
  | tuple {xs ys : List Value} : ItemsStoredAs xs ys → StoredAs (.tuple xs) (.list ys)
  | map {fs gs : List (Value × Value)} : FieldsStoredAs fs gs → StoredAs (.map fs) (.map gs)

inductive ItemsStoredAs : List Value → List Value → Prop where
  | nil : ItemsStoredAs [] []
  | cons {x y : Value} {xs ys : List Value} : StoredAs x y → ItemsStoredAs xs ys → ItemsStoredAs (x :: xs) (y :: ys)

/-- Fields that are stored as fields of the same keys, one by one. -/
inductive FieldsStoredAs : List (Value × Value) → List (Value × Value) → Prop where
  | nil : FieldsStoredAs [] []
  | cons {k v w : Value} {fs gs : List (Value × Value)} : StoredAs v w → FieldsStoredAs fs gs →
      FieldsStoredAs ((k, v) :: fs) ((k, w) :: gs)
end

end Value

namespace Canonical

open Value (StoredAs ItemsStoredAs FieldsStoredAs)

mutual
private theorem storedAs_listed : ∀ v : Value, v.StoredAs (listed v)
  | .null | .bool _ | .int _ | .float _ | .text _ | .bytes _ | .object _ => by
    simp only [listed]
    exact .scalar rfl
  | .list xs => by
    rw [listed]
    exact .list (itemsStoredAs_listedItems xs)
  | .tuple xs => by
    rw [listed]
    exact .tuple (itemsStoredAs_listedItems xs)
  | .map fs => by
    rw [listed]
    exact .map (fieldsStoredAs_listedFields fs)

private theorem itemsStoredAs_listedItems : ∀ xs : List Value, ItemsStoredAs xs (listedItems xs)
  | [] => by
    rw [listedItems]
    exact .nil
  | x :: xs => by
    rw [listedItems]
    exact .cons (storedAs_listed x) (itemsStoredAs_listedItems xs)

private theorem fieldsStoredAs_listedFields : ∀ fs : List (Value × Value), FieldsStoredAs fs (listedFields fs)
  | [] => by
    rw [listedFields]
    exact .nil
  | (k, v) :: fs => by
    rw [listedFields, listedField]
    exact .cons (storedAs_listed v) (fieldsStoredAs_listedFields fs)
end

private theorem toJson_eq_ok_iff {v w : Value} : toJson v = .ok w ↔ (∃ t, encode v = .ok t) ∧ listed v = w := by
  rw [toJson, Fault.map_eq_ok_iff]
  exact ⟨fun ⟨t, ht, hw⟩ => ⟨⟨t, ht⟩, hw⟩, fun ⟨⟨t, ht⟩, hw⟩ => ⟨t, ht, hw⟩⟩

private theorem toJson_listed (v : Value) : toJson (listed v) = toJson v := by
  rw [toJson, toJson, encode_listed, listed_listed]

private theorem listed_eq_of_mem {xs : List Value} (h : listedItems xs = xs) {x : Value} (hx : x ∈ xs) :
    listed x = x := by
  induction xs with
  | nil => exact absurd hx List.not_mem_nil
  | cons y xs ih =>
    rw [listedItems, List.cons.injEq] at h
    rcases List.mem_cons.mp hx with rfl | hm
    · exact h.1
    · exact ih h.2 hm

private theorem listed_eq_of_field_mem {fs : List (Value × Value)} (h : listedFields fs = fs) {f : Value × Value}
    (hf : f ∈ fs) : listed f.2 = f.2 := by
  induction fs with
  | nil => exact absurd hf List.not_mem_nil
  | cons g fs ih =>
    obtain ⟨k, v⟩ := g
    rw [listedFields, listedField, List.cons.injEq, Prod.mk.injEq] at h
    rcases List.mem_cons.mp hf with rfl | hm
    · exact h.1.2
    · exact ih h.2 hm

/-- What a stored form holds is a stored form. -/
theorem toJson_of_holds {w u : Value} (h : w.Holds u) (hw : toJson w = .ok w) : toJson u = .ok u := by
  induction h with
  | self v => exact hw
  | item hx _ ih =>
    obtain ⟨⟨t, ht⟩, hl⟩ := toJson_eq_ok_iff.mp hw
    rw [listed, Value.list.injEq] at hl
    rw [encode, Fault.map_eq_ok_iff] at ht
    obtain ⟨ts, hts, -⟩ := ht
    exact ih (toJson_eq_ok_iff.mpr ⟨exists_encodeItems_iff.mp ⟨ts, hts⟩ _ hx, listed_eq_of_mem hl hx⟩)
  | part hx _ ih =>
    -- A tuple is not its own stored form.
    obtain ⟨-, hl⟩ := toJson_eq_ok_iff.mp hw
    rw [listed] at hl
    exact absurd hl (by simp)
  | key hf _ ih =>
    obtain ⟨⟨t, ht⟩, -⟩ := toJson_eq_ok_iff.mp hw
    obtain ⟨ps, hps, -⟩ := encode_map_eq_ok_iff.mp ht
    obtain ⟨p, hp, hwell, -⟩ := exists_forall₂_iff.mp ⟨ps, hps⟩ _ hf
    rw [hp] at ih
    exact ih (toJson_eq_ok_iff.mpr ⟨⟨_, by rw [encode, encodeText, if_pos hwell]⟩, by simp only [listed]⟩)
  | value hf _ ih =>
    obtain ⟨⟨t, ht⟩, hl⟩ := toJson_eq_ok_iff.mp hw
    rw [listed, Value.map.injEq] at hl
    obtain ⟨ps, hps, -⟩ := encode_map_eq_ok_iff.mp ht
    obtain ⟨p, -, -, hv⟩ := exists_forall₂_iff.mp ⟨ps, hps⟩ _ hf
    exact ih (toJson_eq_ok_iff.mpr ⟨⟨_, hv⟩, listed_eq_of_field_mem hl hf⟩)

private theorem not_holds_tuple {w : Value} (hw : toJson w = .ok w) (xs : List Value) : ¬w.Holds (.tuple xs) := by
  intro h
  obtain ⟨-, hl⟩ := toJson_eq_ok_iff.mp (toJson_of_holds h hw)
  rw [listed] at hl
  exact absurd hl (by simp)

private theorem hash_listed (previousHash eventType : Value) (createdAt : Instant) (v : Value) :
    Link.hash previousHash eventType createdAt (listed v) = Link.hash previousHash eventType createdAt v := by
  rw [Link.hash, Link.hash, Link.hashInput, Link.hashInput, encode_listed]

/-- A value is stored exactly if it has a canonical text, and is refused with the same fault otherwise. What is stored has
no tuples, differs from the value in nothing else, has its text and its hashes, and is stored as it is. -/
theorem toJson_normalizes (v : Value) :
    (∃ f, encode v = .error f ∧ toJson v = .error f) ∨
      ∃ t w, encode v = .ok t ∧ toJson v = .ok w ∧ v.StoredAs w ∧ (∀ xs, ¬w.Holds (.tuple xs)) ∧
        encode w = .ok t ∧ toJson w = .ok w ∧
        ∀ previousHash eventType createdAt,
          Link.hash previousHash eventType createdAt w = Link.hash previousHash eventType createdAt v := by
  cases he : encode v with
  | error f => exact .inl ⟨f, rfl, by rw [toJson, he]; rfl⟩
  | ok t =>
    have hv : toJson v = .ok (listed v) := toJson_eq_ok_iff.mpr ⟨⟨t, he⟩, rfl⟩
    have hw : toJson (listed v) = .ok (listed v) := by rw [toJson_listed, hv]
    refine .inr ⟨t, listed v, rfl, hv, storedAs_listed v, not_holds_tuple hw, ?_, hw, ?_⟩
    · rw [encode_listed, he]
    · exact fun previousHash eventType createdAt => hash_listed previousHash eventType createdAt v

end Canonical

end AuditTrail
