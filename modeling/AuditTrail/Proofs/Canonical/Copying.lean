import AuditTrail.Proofs.Canonical.Fixpoint

/-!
# Copies of encodable values

What has a canonical text can be copied (`isCopyable_of_encode`): only objects from outside JSON refuse it.
-/

namespace AuditTrail

namespace Canonical

mutual
/-- What has a canonical text can be copied. -/
theorem isCopyable_of_encode : ∀ (v : Value) (t : Text), encode v = .ok t → v.isCopyable = true
  | .null | .bool _ | .int _ | .float _ | .text _ | .bytes _ => by
    intro t _
    simp only [Value.isCopyable]
  | .object name => by
    intro t ht
    simp [encode] at ht
  | .list xs | .tuple xs => by
    intro t ht
    rw [encode, Fault.map_eq_ok_iff] at ht
    obtain ⟨ts, hts, -⟩ := ht
    rw [Value.isCopyable]
    exact areCopyable_of_encodeItems xs ts hts
  | .map fs => by
    intro t ht
    rw [encode, Fault.bind_eq_ok_iff] at ht
    obtain ⟨keys, hk, ht⟩ := ht
    obtain ⟨ts, hw, -⟩ := Fault.bind_eq_ok_iff.mp ht
    obtain ⟨ps, -, hps, hr, -⟩ := hereditary_true.of_encodeFields fs keys hk fun r hm =>
      exists_of_mapM_writeField hw (mem_sortFields.mpr hm)
    rw [Value.isCopyable]
    apply fieldsAreCopyable_of_encodeValues fs
    · intro k hm
      rw [← map_fst_rereadFields, hr, List.map_map] at hm
      obtain ⟨p, -, rfl⟩ := List.mem_map.mp hm
      exact ⟨p.key, rfl⟩
    · intro r hm
      rw [hps] at hm
      obtain ⟨p, -, rfl⟩ := List.mem_map.mp hm
      exact ⟨p.text, rfl⟩

private theorem areCopyable_of_encodeItems : ∀ (xs : List Value) (ts : List Text), encodeItems xs = .ok ts →
    Value.areCopyable xs = true
  | [] => by
    intro ts _
    rw [Value.areCopyable]
  | x :: xs => by
    intro ts hts
    rw [encodeItems, Fault.bind_eq_ok_iff] at hts
    obtain ⟨t, ht, hts⟩ := hts
    obtain ⟨us, hus, -⟩ := Fault.bind_eq_ok_iff.mp hts
    rw [Value.areCopyable, isCopyable_of_encode x t ht, areCopyable_of_encodeItems xs us hus]
    rfl

private theorem fieldsAreCopyable_of_encodeValues : ∀ fs : List (Value × Value),
    (∀ k ∈ fs.map Prod.fst, ∃ t, k = .text t) →
    (∀ r ∈ encodeValues fs, ∃ t, r = .ok t) → Value.fieldsAreCopyable fs = true
  | [] => by
    intro _ _
    rw [Value.fieldsAreCopyable]
  | (k, v) :: fs => by
    intro hk hr
    rw [encodeValues, encodeValue] at hr
    obtain ⟨t, ht⟩ := hr _ List.mem_cons_self
    have hkey : k.isCopyable = true := by
      obtain ⟨s, rfl⟩ := hk k List.mem_cons_self
      simp only [Value.isCopyable]
    have hfs := fieldsAreCopyable_of_encodeValues fs (fun j hm => hk j (List.mem_cons_of_mem _ hm))
      fun r hm => hr r (List.mem_cons_of_mem _ hm)
    rw [Value.fieldsAreCopyable, Value.fieldIsCopyable, hkey, isCopyable_of_encode v t ht, hfs]
    rfl
end

end Canonical

end AuditTrail
