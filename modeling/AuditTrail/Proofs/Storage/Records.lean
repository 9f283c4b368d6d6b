import AuditTrail.Entry
import AuditTrail.Proofs.Canonical.Spelling

/-!
# Records

The record of an entry is read back as an entry with the same fields, each as its canonical text spells
it, and with the instant of its stamp (`Entry.ofRecord_reread`). The order in which the record's fields are
written does not matter, since their keys differ.
-/

namespace AuditTrail

namespace Value

variable {key : Text} {v : Value}

private theorem find?_foldl_put_of_not_mem (fs : List (Text × Value)) (h : key ∉ fs.map Prod.fst)
    (done : List (Value × Value)) :
    find? key (fs.foldl (fun done f => put (.text f.1) f.2 done) done) = find? key done := by
  induction fs generalizing done with
  | nil => rfl
  | cons f fs ih =>
    rw [List.map_cons, List.mem_cons, not_or] at h
    rw [List.foldl_cons, ih h.2, find?_put_of_ne fun e => h.1 e.symm]

private theorem find?_foldl_put (fs : List (Text × Value)) (hn : (fs.map Prod.fst).Nodup) (hm : (key, v) ∈ fs)
    (done : List (Value × Value)) :
    find? key (fs.foldl (fun done f => put (.text f.1) f.2 done) done) = some v := by
  induction fs generalizing done with
  | nil => exact absurd hm List.not_mem_nil
  | cons f fs ih =>
    rw [List.map_cons, List.nodup_cons] at hn
    rw [List.foldl_cons]
    rcases List.mem_cons.mp hm with rfl | hm
    · rw [find?_foldl_put_of_not_mem fs hn.1, find?_put_self]
    · exact ih hn.2 hm _

end Value

namespace Canonical

private theorem exists_sorted (fs : List (Text × Value)) : ∃ gs : List (Text × Value), gs.Perm fs ∧
    sortByKey (fs.map fun f => (.text f.1, f.2)) = gs.map fun f => (.text f.1, f.2) := by
  have hs := sortByKey_eq (fs.map fun f => ⟨f.1, [], f.2⟩)
  rw [List.map_map] at hs
  refine ⟨(sortFields ((fs.map fun f => (⟨f.1, [], f.2⟩ : Field)).map Field.keyed)).map fun f => (f.2.key, f.2.value),
    ?_, ?_⟩
  · have hp := (List.mergeSort_perm ((fs.map fun f => (⟨f.1, [], f.2⟩ : Field)).map Field.keyed)
      fun f g => Text.le f.1 g.1).map fun f => (f.2.key, f.2.value)
    have he : ((fs.map fun f => (⟨f.1, [], f.2⟩ : Field)).map Field.keyed).map (fun f => (f.2.key, f.2.value)) = fs := by
      rw [List.map_map, List.map_map]
      exact List.map_id' fs
    rw [he] at hp
    exact hp
  · rw [List.map_map]
    exact hs

private theorem rereadFields_map (fs : List (Text × Value)) :
    rereadFields (fs.map fun f => (.text f.1, f.2)) = fs.map fun f => (.text f.1, reread f.2) := by
  induction fs with
  | nil => rw [List.map_nil, rereadFields, List.map_nil]
  | cons f fs ih => rw [List.map_cons, rereadFields, rereadField, ih, List.map_cons]

theorem find?_reread {fs : List (Text × Value)} (hn : (fs.map Prod.fst).Nodup) :
    ∃ rs, reread (.map (fs.map fun f => (.text f.1, f.2))) = .map rs ∧
      ∀ key v, (key, v) ∈ fs → Value.find? key rs = some (reread v) := by
  obtain ⟨gs, hp, hs⟩ := exists_sorted (fs.map fun f => (f.1, reread f.2))
  refine ⟨gs.foldl (fun done f => Value.put (.text f.1) f.2 done) [], ?_, ?_⟩
  · rw [List.map_map] at hs
    rw [reread, rereadFields_map]
    show Value.ofFields (sortByKey (fs.map fun f => (.text f.1, reread f.2))) = _
    rw [Value.ofFields, show sortByKey (fs.map fun f => (.text f.1, reread f.2)) = _ from hs, List.foldl_map]
  · intro key v hm
    have hk : (gs.map Prod.fst).Nodup := by
      rw [(hp.map Prod.fst).nodup_iff, List.map_map]
      exact hn
    exact Value.find?_foldl_put gs hk (hp.mem_iff.mpr (List.mem_map.mpr ⟨(key, v), hm, rfl⟩)) []

theorem exists_encode_map {fs : List (Text × Value)} (h : ∀ f ∈ fs, f.1.isWellFormed = true ∧ ∃ t, encode f.2 = .ok t) :
    ∃ t, encode (.map (fs.map fun f => (.text f.1, f.2))) = .ok t := by
  have hp : ∃ ps : List Field,
      (fs.map fun f => (Value.text f.1, f.2)).mapM (fun f => encodeKey f.1) = .ok (ps.map fun p => quote p.key) ∧
        encodeValues (fs.map fun f => (.text f.1, f.2)) = ps.map fun p => .ok p.text := by
    induction fs with
    | nil => exact ⟨[], rfl, by rw [List.map_nil, encodeValues, List.map_nil]⟩
    | cons f fs ih =>
      obtain ⟨hw, t, ht⟩ := h f List.mem_cons_self
      obtain ⟨ps, hk, hv⟩ := ih fun g hg => h g (List.mem_cons_of_mem f hg)
      have hkey : encodeKey (.text f.1) = .ok (quote f.1) := by rw [encodeKey, encodeText, if_pos hw]
      refine ⟨⟨f.1, t, f.2⟩ :: ps, ?_, ?_⟩
      · rw [List.map_cons, List.mapM_cons, hkey, hk]
        rfl
      · rw [List.map_cons, encodeValues, encodeValue, ht, hv, List.map_cons]
  obtain ⟨ps, hk, hv⟩ := hp
  exact ⟨_, encode_map_eq hk hv⟩

mutual
private theorem reread_listed : ∀ v : Value, reread (listed v) = reread v
  | .null | .bool _ | .int _ | .float _ | .text _ | .bytes _ | .object _ => by simp only [listed]
  | .list xs | .tuple xs => by simp only [listed, reread, rereadItems_listedItems xs]
  | .map fs => by simp only [listed, reread, rereadFields_listedFields fs]

private theorem rereadItems_listedItems : ∀ xs : List Value, rereadItems (listedItems xs) = rereadItems xs
  | [] => by simp only [listedItems]
  | x :: xs => by simp only [listedItems, rereadItems, reread_listed x, rereadItems_listedItems xs]

private theorem rereadFields_listedFields : ∀ fs : List (Value × Value),
    rereadFields (listedFields fs) = rereadFields fs
  | [] => by simp only [listedFields]
  | (k, v) :: fs => by
    simp only [listedFields, listedField, rereadFields, rereadField, reread_listed v, rereadFields_listedFields fs]
end

end Canonical

namespace Entry

open Canonical

/-- The entry that is read back from a record of an entry, with the instant of the record's stamp. -/
def readBack (e : Entry) (createdAt : Instant) : Entry :=
  ⟨reread e.id, reread e.eventType, reread e.source, reread e.correlationId, reread e.details, reread e.previousHash,
    reread e.currentHash, createdAt⟩

/-- The fields of a record by the texts of their keys. -/
def recordPairs (e : Entry) (details : Value) (stamp : Text) : List (Text × Value) :=
  [(lit "id", e.id), (lit "event_type", e.eventType), (lit "module", e.source),
    (lit "correlation_id", e.correlationId), (lit "details", details), (lit "previous_hash", e.previousHash),
    (lit "current_hash", e.currentHash), (lit "created_at", .text stamp)]

theorem recordFields_eq (e : Entry) (details : Value) (stamp : Text) :
    e.recordFields details stamp = (e.recordPairs details stamp).map fun f => (.text f.1, f.2) := rfl

theorem nodup_recordPairs (e : Entry) (details : Value) (stamp : Text) :
    ((e.recordPairs details stamp).map Prod.fst).Nodup := by
  show [lit "id", lit "event_type", lit "module", lit "correlation_id", lit "details", lit "previous_hash",
    lit "current_hash", lit "created_at"].Nodup
  decide

theorem ofRecord_reread (e : Entry) (stamp : Text) :
    ofRecord (reread (.map (e.recordFields (listed e.details) stamp))) =
      (StampReader.read stamp).map fun t => e.readBack t := by
  obtain ⟨rs, hr, hf⟩ := find?_reread (nodup_recordPairs e (listed e.details) stamp)
  have hid := hf (lit "id") e.id (by simp [recordPairs])
  have htype := hf (lit "event_type") e.eventType (by simp [recordPairs])
  have hsource := hf (lit "module") e.source (by simp [recordPairs])
  have hcorrelation := hf (lit "correlation_id") e.correlationId (by simp [recordPairs])
  have hdetails := hf (lit "details") (listed e.details) (by simp [recordPairs])
  have hprevious := hf (lit "previous_hash") e.previousHash (by simp [recordPairs])
  have hcurrent := hf (lit "current_hash") e.currentHash (by simp [recordPairs])
  have hcreated := hf (lit "created_at") (.text stamp) (by simp [recordPairs])
  rw [reread_listed] at hdetails
  rw [recordFields_eq, hr, ofRecord]
  simp only [required, optional, hid, htype, hsource, hcorrelation, hdetails, hprevious, hcurrent, hcreated]
  cases hs : StampReader.read stamp with
  | error f => simp [bind, Except.bind, Except.map, reread, readStamp, hs]
  | ok t => simp [bind, Except.bind, Except.map, pure, Except.pure, reread, readStamp, hs, readBack]

end Entry

end AuditTrail
