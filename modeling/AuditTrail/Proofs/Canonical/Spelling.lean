import AuditTrail.Proofs.Decimal.DigitText
import AuditTrail.Value.Canonical

/-!
# What canonical text spells

Canonical text spells a value without tuples, whose maps are in the order of their encoded keys and
whose whole numbers below a sextillion are integers (`reread`). A property of texts and the values
that they spell holds of every canonical text once it is kept by the ways in which such texts are
put together (`Hereditary.of_encode`).
-/

namespace AuditTrail.Canonical

def floatText (x : Binary64) : Text :=
  (if x.isNegative then lit "-" else []) ++ x.shortest.layout canonicalStyle

/-- The number that digits with a point spell behind a sign. -/
def spelledNumber (negative : Bool) (d : Decimal.Pointed) : Value :=
  let k := d.digits.length
  let n := Decimal.value d.digits
  if (k : Int) ≤ d.point ∧ d.point ≤ canonicalStyle.high then
    let i : Int := (n * Nat.pow 10 (d.point - k).toNat : Nat)
    .int (if negative then -i else i)
  else .float (Binary64.ofDecimal negative n (d.point - k))

/-- The number that a canonical text of a floating point number spells. -/
def rereadFloat (x : Binary64) : Value :=
  if x.isZero then .int 0 else spelledNumber x.isNegative x.shortest

def keyText : Value → Text
  | .text t => quote t
  | _ => []

def sortByKey (fs : List (Value × Value)) : List (Value × Value) :=
  (sortFields (fs.map fun f => (keyText f.1, f))).map Prod.snd

mutual
/-- The value that the canonical text of a value spells. -/
def reread : Value → Value
  | .float x => rereadFloat x
  | .list xs => .list (rereadItems xs)
  | .tuple xs => .list (rereadItems xs)
  | .map fs => Value.ofFields (sortByKey (rereadFields fs))
  | v => v
termination_by structural v => v

def rereadItems : List Value → List Value
  | [] => []
  | x :: xs => reread x :: rereadItems xs
termination_by structural xs => xs

def rereadFields : List (Value × Value) → List (Value × Value)
  | [] => []
  | f :: fs => rereadField f :: rereadFields fs
termination_by structural fs => fs

def rereadField : Value × Value → Value × Value
  | (k, v) => (k, reread v)
termination_by structural f => f
end

def bracketed (ts : List Text) : Text := lit "[" ++ Text.join (lit ",") ts ++ lit "]"

def fieldText (key t : Text) : Text := quote key ++ lit ":" ++ t

def braced (ts : List Text) : Text := lit "\x7b" ++ Text.join (lit ",") ts ++ lit "\x7d"

/-- A property of texts and the values that they spell is kept by the ways in which canonical texts
are put together. -/
structure Hereditary (P : Text → Value → Prop) : Prop where
  null : P (lit "null") .null
  bool : ∀ b, P (lit (if b then "true" else "false")) (.bool b)
  int : ∀ i, Decimal.isOversized i = false → P (Decimal.ofInt i) (.int i)
  float : ∀ x : Binary64, x.isFinite = true → x.isZero = false → P (floatText x) (rereadFloat x)
  text : ∀ t, t.isWellFormed = true → P (quote t) (.text t)
  list : ∀ ps : List (Text × Value), (∀ p ∈ ps, P p.1 p.2) →
    P (bracketed (ps.map Prod.fst)) (.list (ps.map Prod.snd))
  map : ∀ fs : List (Text × Text × Value), (∀ f ∈ fs, f.1.isWellFormed = true ∧ P f.2.1 f.2.2) →
    P (braced (fs.map fun f => fieldText f.1 f.2.1)) (Value.ofFields (fs.map fun f => (.text f.1, f.2.2)))

private theorem sortFields_map {α β : Type} (g : α → β) (fs : List (Text × α)) :
    sortFields (fs.map fun f => (f.1, g f.2)) = (sortFields fs).map fun f => (f.1, g f.2) := by
  have hm := List.map_mergeSort (f := fun f : Text × α => (f.1, g f.2)) (l := fs)
    (r := fun f g => Text.le f.1 g.1) (s := fun f g => Text.le f.1 g.1) fun _ _ _ _ => rfl
  exact hm.symm

theorem mem_sortFields {α : Type} {fs : List (Text × α)} {f : Text × α} : f ∈ sortFields fs ↔ f ∈ fs :=
  (List.mergeSort_perm fs _).mem_iff

private theorem encodeKey_eq_ok {k : Value} {t : Text} (h : encodeKey k = .ok t) :
    ∃ s, k = .text s ∧ s.isWellFormed = true ∧ t = quote s := by
  cases k with
  | text s =>
    rw [encodeKey, encodeText] at h
    by_cases hw : s.isWellFormed = true
    · rw [if_pos hw, Except.ok.injEq] at h
      exact ⟨s, rfl, hw, h.symm⟩
    · simp [hw] at h
  | _ =>
    simp only [encodeKey] at h
    split at h <;> simp at h

private theorem mapM_writeField_ok {α : Type} (text : α → Text) (fs : List (Text × α)) :
    (fs.map fun f => (f.1, (Except.ok (text f.2) : Except Fault Text))).mapM writeField =
      .ok (fs.map fun f => f.1 ++ lit ":" ++ text f.2) := by
  induction fs with
  | nil => rfl
  | cons f fs ih =>
    rw [List.map_cons, List.mapM_cons, ih]
    rfl

theorem exists_of_mapM_writeField {fs : List (Text × Except Fault Text)} {ts : List Text}
    (h : fs.mapM writeField = .ok ts) {f : Text × Except Fault Text} (hf : f ∈ fs) : ∃ t, f.2 = .ok t := by
  obtain ⟨t, ht⟩ := Fault.exists_of_mapM_eq_ok h hf
  obtain ⟨u, hu, -⟩ := Fault.map_eq_ok_iff.mp ht
  exact ⟨u, hu⟩

/-- What is known of a field of an encodable map: its key as a text, the canonical text of its value,
and the value that this text spells. -/
structure Field where
  key : Text
  text : Text
  value : Value

def Field.keyed (f : Field) : Text × Field := (quote f.key, f)

theorem sortByKey_eq (fs : List Field) :
    sortByKey (fs.map fun f => (.text f.key, f.value)) =
      (sortFields (fs.map Field.keyed)).map fun f => (.text f.2.key, f.2.value) := by
  have hk : ((fs.map fun f => ((Value.text f.key, f.value) : Value × Value)).map fun f => (keyText f.1, f)) =
      (fs.map Field.keyed).map fun f => (f.1, ((.text f.2.key, f.2.value) : Value × Value)) := by
    rw [List.map_map, List.map_map]
    rfl
  rw [sortByKey, hk, sortFields_map fun f : Field => ((.text f.key, f.value) : Value × Value), List.map_map]
  rfl

theorem encodeInt_eq_ok {i : Int} {t : Text} (h : encodeInt i = .ok t) :
    Decimal.isOversized i = false ∧ t = Decimal.ofInt i := by
  rw [encodeInt] at h
  cases ho : Decimal.isOversized i with
  | true => simp [ho] at h
  | false =>
    simp only [ho, Bool.false_eq_true, if_false, Except.ok.injEq] at h
    exact ⟨rfl, h.symm⟩

theorem isOversized_zero : Decimal.isOversized 0 = false :=
  Decimal.isOversized_eq_false_iff.mpr (Nat.pow_pos (by decide))

theorem ofInt_zero : Decimal.ofInt 0 = lit "0" := by
  have hd : Decimal.digits 0 = [0] := Decimal.digits_of_lt (by decide)
  rw [Decimal.ofInt, if_neg (by decide), Decimal.ofNat, Int.natAbs_zero, hd]
  rfl

theorem encode_map_eq {fs : List (Value × Value)} {ps : List Field}
    (hk : fs.mapM (fun f => encodeKey f.1) = .ok (ps.map fun p => quote p.key))
    (hv : encodeValues fs = ps.map fun p => .ok p.text) :
    encode (.map fs) = .ok (braced ((sortFields (ps.map Field.keyed)).map fun f => fieldText f.2.key f.2.text)) := by
  have hz : (ps.map fun p => quote p.key).zip (ps.map fun p => (Except.ok p.text : Except Fault Text)) =
      (ps.map Field.keyed).map fun f => (f.1, (Except.ok f.2.text : Except Fault Text)) := by
    rw [List.zip_map', List.map_map]
    rfl
  have ht : (sortFields (ps.map Field.keyed)).map (fun f => f.1 ++ lit ":" ++ f.2.text) =
      (sortFields (ps.map Field.keyed)).map fun f => fieldText f.2.key f.2.text := by
    apply List.map_congr_left
    intro f hf
    obtain ⟨p, -, rfl⟩ := List.mem_map.mp (mem_sortFields.mp hf)
    rfl
  rw [encode, hk, hv]
  simp only [bind, Except.bind]
  rw [hz, sortFields_map fun p : Field => (Except.ok p.text : Except Fault Text), mapM_writeField_ok]
  simp only [pure, Except.pure]
  rw [ht, braced]

namespace Hereditary

variable {P : Text → Value → Prop}

private theorem of_fields (h : Hereditary P) {fs : List (Value × Value)} {ps : List Field}
    (hk : fs.mapM (fun f => encodeKey f.1) = .ok (ps.map fun p => quote p.key))
    (hv : encodeValues fs = ps.map fun p => .ok p.text)
    (hr : rereadFields fs = ps.map fun p => (.text p.key, p.value))
    (hp : ∀ p ∈ ps, p.key.isWellFormed = true ∧ P p.text p.value) {t : Text}
    (he : encode (.map fs) = .ok t) : P t (reread (.map fs)) := by
  have hs := h.map ((sortFields (ps.map Field.keyed)).map fun f => (f.2.key, f.2.text, f.2.value)) (by
    intro f hf
    obtain ⟨g, hg, rfl⟩ := List.mem_map.mp hf
    obtain ⟨p, hm, rfl⟩ := List.mem_map.mp (mem_sortFields.mp hg)
    exact hp p hm)
  rw [encode_map_eq hk hv, Except.ok.injEq] at he
  rw [List.map_map, List.map_map] at hs
  rw [reread, hr, sortByKey_eq, ← he]
  exact hs

mutual
/-- What is kept in putting canonical texts together holds of every canonical text. -/
theorem of_encode (h : Hereditary P) : ∀ (v : Value) (t : Text), encode v = .ok t → P t (reread v)
  | .null => by
    intro t he
    simp only [encode, Except.ok.injEq] at he
    simp only [reread, ← he]
    exact h.null
  | .bool b => by
    intro t he
    simp only [encode, Except.ok.injEq] at he
    simp only [reread, ← he]
    exact h.bool b
  | .int i => by
    intro t he
    simp only [encode] at he
    obtain ⟨ho, rfl⟩ := encodeInt_eq_ok he
    simp only [reread]
    exact h.int i ho
  | .float x => by
    intro t he
    rw [encode, encodeFloat] at he
    by_cases hf : x.isFinite = true
    · by_cases hz : x.isZero = true
      · simp only [hf, hz, Bool.not_true, Bool.false_eq_true, if_false, if_true, Except.ok.injEq] at he
        rw [reread, rereadFloat, if_pos hz, ← he, ← ofInt_zero]
        exact h.int 0 isOversized_zero
      · simp only [hf, hz, Bool.not_true, Bool.false_eq_true, if_false, Except.ok.injEq] at he
        rw [reread, ← he]
        exact h.float x hf (Bool.eq_false_iff.mpr hz)
    · simp [hf] at he
  | .text s => by
    intro t he
    rw [encode, encodeText] at he
    by_cases hw : s.isWellFormed = true
    · rw [if_pos hw, Except.ok.injEq] at he
      simp only [reread, ← he]
      exact h.text s hw
    · simp [hw] at he
  | .list xs => by
    intro t he
    rw [encode, Fault.map_eq_ok_iff] at he
    obtain ⟨ts, hs, rfl⟩ := he
    obtain ⟨ps, hp, rfl, hr⟩ := of_encodeItems h xs ts hs
    rw [reread, hr]
    exact h.list ps hp
  | .tuple xs => by
    intro t he
    rw [encode, Fault.map_eq_ok_iff] at he
    obtain ⟨ts, hs, rfl⟩ := he
    obtain ⟨ps, hp, rfl, hr⟩ := of_encodeItems h xs ts hs
    rw [reread, hr]
    exact h.list ps hp
  | .map fs => by
    intro t he
    have he' := he
    rw [encode, Fault.bind_eq_ok_iff] at he
    obtain ⟨keys, hk, he⟩ := he
    obtain ⟨ts, hw, -⟩ := Fault.bind_eq_ok_iff.mp he
    have hv : ∀ r ∈ keys.zip (encodeValues fs), ∃ t, r.2 = .ok t := fun r hr =>
      exists_of_mapM_writeField hw (mem_sortFields.mpr hr)
    obtain ⟨ps, rfl, hps, hr, hp⟩ := of_encodeFields h fs keys hk hv
    exact of_fields h hk hps hr hp he'
  | .bytes bs => by simp [encode]
  | .object name => by simp [encode]

private theorem of_encodeItems (h : Hereditary P) : ∀ (xs : List Value) (ts : List Text), encodeItems xs = .ok ts →
    ∃ ps : List (Text × Value), (∀ p ∈ ps, P p.1 p.2) ∧ ts = ps.map Prod.fst ∧ rereadItems xs = ps.map Prod.snd
  | [] => by
    intro ts he
    rw [encodeItems, Except.ok.injEq] at he
    exact ⟨[], by simp, he.symm, by rw [rereadItems]; rfl⟩
  | x :: xs => by
    intro ts he
    rw [encodeItems, Fault.bind_eq_ok_iff] at he
    obtain ⟨t, ht, he⟩ := he
    obtain ⟨us, hu, he⟩ := Fault.bind_eq_ok_iff.mp he
    simp only [pure, Except.pure, Except.ok.injEq] at he
    obtain ⟨ps, hp, rfl, hr⟩ := of_encodeItems h xs us hu
    refine ⟨(t, reread x) :: ps, ?_, he.symm, by rw [rereadItems, hr]; rfl⟩
    intro p hm
    rcases List.mem_cons.mp hm with rfl | hm
    · exact of_encode h _ t ht
    · exact hp p hm

theorem of_encodeFields (h : Hereditary P) : ∀ (fs : List (Value × Value)) (keys : List Text),
    fs.mapM (fun f => encodeKey f.1) = .ok keys →
    (∀ r ∈ keys.zip (encodeValues fs), ∃ t, r.2 = .ok t) →
    ∃ ps : List Field, keys = ps.map (fun p => quote p.key) ∧ encodeValues fs = ps.map (fun p => .ok p.text) ∧
      rereadFields fs = ps.map (fun p => (.text p.key, p.value)) ∧
      ∀ p ∈ ps, p.key.isWellFormed = true ∧ P p.text p.value
  | [] => by
    intro keys hk _
    simp only [List.mapM_nil, pure, Except.pure, Except.ok.injEq] at hk
    exact ⟨[], hk.symm, by rw [encodeValues]; rfl, by rw [rereadFields]; rfl, by simp⟩
  | (k, v) :: fs => by
    intro keys hk hv
    rw [List.mapM_cons, Fault.bind_eq_ok_iff] at hk
    obtain ⟨kt, hkt, hk⟩ := hk
    obtain ⟨rest, hrest, hk⟩ := Fault.bind_eq_ok_iff.mp hk
    simp only [pure, Except.pure, Except.ok.injEq] at hk
    obtain ⟨s, rfl, hs, rfl⟩ := encodeKey_eq_ok hkt
    subst hk
    rw [encodeValues, encodeValue, List.zip_cons_cons] at hv
    obtain ⟨t, ht⟩ := hv _ List.mem_cons_self
    have ht : encode v = .ok t := ht
    obtain ⟨ps, rfl, hps, hr, hp⟩ := of_encodeFields h fs rest hrest fun r hm => hv r (List.mem_cons_of_mem _ hm)
    refine ⟨⟨s, t, reread v⟩ :: ps, rfl, by rw [encodeValues, encodeValue, ht, hps]; rfl,
      by rw [rereadFields, rereadField, hr]; rfl, ?_⟩
    intro p hm
    rcases List.mem_cons.mp hm with rfl | hm
    · exact ⟨hs, of_encode h _ t ht⟩
    · exact hp p hm
end

end Hereditary

end AuditTrail.Canonical
