import AuditTrail.Proofs.Decimal.IntegerTexts
import AuditTrail.Proofs.Storage.RoundTrip
import Mathlib.Data.List.Sort

/-!
# Keys of entries

From 1970 on the key of an entry tells its millisecond, whatever the beginning of the keys and the entry's id, as long
as the id is not empty; before 1970 it tells nothing, as the sign is taken for the hyphen in front of the id
(`ObjectLog.millisOfKey?_keyFor`). Keys of entries at different milliseconds from 1970 on are therefore put in the order
of the entries (`ObjectLog.entryKeys_eq`).
-/

namespace AuditTrail

namespace Instant

theorem epochMillis_lt {t : Instant} {ms : Int} (h : t.epochMillis = .ok ms) : ms < (10 ^ 15 : Nat) := by
  obtain ⟨m, hm, rfl⟩ := Fault.map_eq_ok_iff.mp h
  have hwall : m < wallLimit := by
    rw [utcMoment] at hm
    split at hm
    · obtain ⟨u, -, rfl⟩ := Fault.map_eq_ok_iff.mp hm
      exact_mod_cast u.inRange
    · split at hm
      · exact absurd hm (by simp)
      · rw [← Except.ok.inj hm]
        exact_mod_cast t.inRange
  simp only [wallLimit, Calendar.dayLimit, epochWall, Duration.perDay, Duration.perHour, Duration.perSecond,
    Duration.perMilli] at hwall ⊢
  omega

end Instant

namespace ObjectLog

theorem hyphen_not_mem_padded (width n : Nat) : CodePoint.ofChar '-' ∉ Decimal.padded width n := by
  intro h
  have hv := Stamp.val_of_mem_padded h
  rw [CodePoint.val_ofChar] at hv
  exact absurd hv (by decide)

/-- What a key has behind its folder, in front of its ending. -/
def nameOf (ms : Int) (id : Text) : Text := millisText ms ++ lit "-" ++ id

theorem keyFor_eq_ok_iff {l : ObjectLog} {e : Entry} {key : Text} : l.keyFor e = .ok key ↔
    ∃ ms id, e.createdAt.epochMillis = .ok ms ∧ e.id.display? = some id ∧
      key = l.root ++ (nameOf ms id ++ lit ".json") := by
  rw [keyFor, Fault.bind_eq_ok_iff]
  constructor
  · rintro ⟨ms, hms, h⟩
    split at h
    · next id hid =>
      refine ⟨ms, id, hms, hid, ?_⟩
      rw [← Except.ok.inj h, nameOf]
      simp only [List.append_assoc]
    · exact absurd h (by simp)
  · rintro ⟨ms, id, hms, hid, rfl⟩
    refine ⟨ms, hms, ?_⟩
    simp only [hid, nameOf, List.append_assoc]
    rfl

theorem millisOfKey?_root (l : ObjectLog) {name number behind : Text} {c : CodePoint}
    (h : Text.cut (CodePoint.ofChar '-') name = (number, some (c :: behind))) :
    l.millisOfKey? (l.root ++ (name ++ lit ".json")) = Decimal.readInteger number := by
  have hback : Text.dropBack? (lit ".json") (name ++ lit ".json") = some name := Text.dropBack?_eq_some_iff.mpr rfl
  simp only [millisOfKey?, Text.dropFront?_append, hback, bind, Option.bind, h]

theorem millisOfKey?_root_of_noNumber (l : ObjectLog) {name : Text}
    (h : Decimal.readInteger (Text.cut (CodePoint.ofChar '-') name).1 = none) :
    l.millisOfKey? (l.root ++ (name ++ lit ".json")) = none := by
  have hback : Text.dropBack? (lit ".json") (name ++ lit ".json") = some name := Text.dropBack?_eq_some_iff.mpr rfl
  simp only [millisOfKey?, Text.dropFront?_append, hback, bind, Option.bind]
  split
  · next number c t hcut =>
    rw [hcut] at h
    exact h
  · rfl

/-- The key of an entry tells its millisecond from 1970 on, and nothing before. -/
theorem millisOfKey?_keyFor {l : ObjectLog} {e : Entry} {key id : Text} {ms : Int} (hk : l.keyFor e = .ok key)
    (hm : e.createdAt.epochMillis = .ok ms) (hid : e.id.display? = some id) (hne : id ≠ []) :
    l.millisOfKey? key = if 0 ≤ ms then some ms else none := by
  obtain ⟨ms', id', hms', hid', rfl⟩ := keyFor_eq_ok_iff.mp hk
  obtain rfl := Except.ok.inj (hm.symm.trans hms')
  obtain rfl := Option.some.inj (hid.symm.trans hid')
  obtain ⟨c, t, rfl⟩ := List.exists_cons_of_ne_nil hne
  have hlt := Instant.epochMillis_lt hm
  rw [nameOf, millisText]
  by_cases h : 0 ≤ ms
  · obtain ⟨n, rfl⟩ := Int.eq_ofNat_of_zero_le h
    have hcut : Text.cut (CodePoint.ofChar '-') (Decimal.padded 15 n ++ lit "-" ++ c :: t) =
        (Decimal.padded 15 n, some (c :: t)) := by
      rw [List.append_assoc]
      exact Text.cut_append (hyphen_not_mem_padded 15 n) (c :: t)
    rw [if_neg (by omega), if_pos h, Int.natAbs_natCast, millisOfKey?_root l hcut]
    exact Decimal.readInteger_padded (by decide) (by decide) (by omega)
  · -- The hyphen of the sign comes first, with nothing in front of it.
    have hcut : ∀ u : Text, (Text.cut (CodePoint.ofChar '-') (CodePoint.ofChar '-' :: u)).1 = [] :=
      fun u => congrArg Prod.fst (Text.cut_append List.not_mem_nil u)
    rw [if_pos (by omega), if_neg h]
    apply millisOfKey?_root_of_noNumber
    rw [List.cons_append, List.cons_append, hcut]
    rfl

end ObjectLog

namespace FileLog.Line

def millis (l : Line) : Int := ((l.utc.wall : Int) - Instant.epochWall) / Duration.perMilli

private theorem epochMillis_entry (l : Line) : l.entry.createdAt.epochMillis = .ok l.millis := by
  rw [Instant.epochMillis, Instant.utcMoment, if_pos l.isAware_entry, l.toUtc_eq]
  rfl

/-- The line's entry has a text for its id, which is not empty, and an instant from 1970 on. -/
structure IsKeyed (l : Line) : Prop where
  id : ∃ t, l.entry.id = .text t ∧ t ≠ []
  sinceEpoch : Instant.epochWall ≤ l.utc.wall

private theorem IsKeyed.millis_nonneg {l : Line} (h : l.IsKeyed) : 0 ≤ l.millis := by
  have := h.sinceEpoch
  rw [millis]
  simp only [Duration.perMilli]
  omega

end FileLog.Line

namespace ObjectLog

open FileLog (Line)

def keyOf (l : ObjectLog) (r : Line) : Text :=
  l.root ++ millisText r.millis ++ lit "-" ++ r.entry.id.display ++ lit ".json"

theorem keyFor_line (l : ObjectLog) {r : Line} (h : r.IsKeyed) : l.keyFor r.entry = .ok (l.keyOf r) := by
  obtain ⟨⟨t, ht, -⟩, -⟩ := h
  rw [keyFor, r.epochMillis_entry, keyOf, ht]
  rfl

private theorem millisOfKey?_keyOf (l : ObjectLog) {r : Line} (h : r.IsKeyed) :
    l.millisOfKey? (l.keyOf r) = some r.millis := by
  obtain ⟨id, hid, hne⟩ := h.id
  have hd : r.entry.id.display? = some id := by
    rw [hid]
    rfl
  rw [millisOfKey?_keyFor (keyFor_line l h) r.epochMillis_entry hd hne, if_pos h.millis_nonneg]

theorem keyLe_trans (a b c : Int × Text) (hab : keyLe a b = true) (hbc : keyLe b c = true) : keyLe a c = true := by
  simp only [keyLe, Bool.or_eq_true, Bool.and_eq_true, decide_eq_true_eq, beq_iff_eq] at hab hbc ⊢
  rcases hab with hab | ⟨hab, hle⟩
  · rcases hbc with hbc | ⟨hbc, -⟩
    · exact .inl (by omega)
    · exact .inl (by omega)
  · rcases hbc with hbc | ⟨hbc, hle'⟩
    · exact .inl (by omega)
    · exact .inr ⟨by omega, Text.le_trans _ _ _ hle hle'⟩

theorem keyLe_total (a b : Int × Text) : (keyLe a b || keyLe b a) = true := by
  have ht := Text.le_total a.2 b.2
  simp only [keyLe, Bool.or_eq_true, Bool.and_eq_true, decide_eq_true_eq, beq_iff_eq] at ht ⊢
  rcases Int.lt_trichotomy a.1 b.1 with h | h | h
  · exact .inl (.inl h)
  · rcases ht with ht | ht
    · exact .inl (.inr ⟨h, ht⟩)
    · exact .inr (.inr ⟨h.symm, ht⟩)
  · exact .inr (.inl h)

theorem keyLe_antisymm (a b : Int × Text) (hab : keyLe a b = true) (hba : keyLe b a = true) : a = b := by
  simp only [keyLe, Bool.or_eq_true, Bool.and_eq_true, decide_eq_true_eq, beq_iff_eq] at hab hba
  have h1 : a.1 = b.1 := by omega
  have h2 : a.2 = b.2 := by
    apply Text.le_antisymm
    · rcases hab with h | h
      · omega
      · exact h.2
    · rcases hba with h | h
      · omega
      · exact h.2
  exact Prod.ext h1 h2

/-- Keys of entries at different milliseconds are put in the order of the entries. -/
theorem entryKeys_eq (l : ObjectLog) {rows : List Line} (hr : ∀ r ∈ rows, r.IsKeyed)
    (hs : rows.Pairwise fun a b => a.millis < b.millis) {listed : List Text} (hp : listed.Perm (rows.map l.keyOf)) :
    l.entryKeys listed = rows.map fun r => (r.millis, l.keyOf r) := by
  have hkeys : (rows.map l.keyOf).filterMap (fun k => (l.millisOfKey? k).map (·, k)) =
      rows.map fun r => (r.millis, l.keyOf r) := by
    rw [List.filterMap_map, ← List.filterMap_eq_map]
    apply List.filterMap_congr
    intro r hm
    simp only [Function.comp, millisOfKey?_keyOf l (hr r hm), Option.map_some]
  have hperm := (List.mergeSort_perm _ keyLe).trans (hkeys ▸ hp.filterMap fun k => (l.millisOfKey? k).map (·, k))
  have hsorted : (rows.map fun r => (r.millis, l.keyOf r)).Pairwise fun a b => keyLe a b = true := by
    rw [List.pairwise_map]
    apply hs.imp
    intro a b hab
    simp only [keyLe, hab, decide_true, Bool.true_or]
  exact hperm.eq_of_pairwise (fun a b _ _ => keyLe_antisymm a b)
    (List.pairwise_mergeSort keyLe_trans keyLe_total _) hsorted

theorem keyOf_injective (l : ObjectLog) {a b : Line} (ha : a.IsKeyed) (hb : b.IsKeyed) (h : l.keyOf a = l.keyOf b) :
    a.millis = b.millis := by
  have hm := millisOfKey?_keyOf l ha
  rw [h, millisOfKey?_keyOf l hb] at hm
  exact (Option.some.inj hm).symm

end ObjectLog

end AuditTrail
