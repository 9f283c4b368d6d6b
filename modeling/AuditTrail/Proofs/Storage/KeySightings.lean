import AuditTrail.Proofs.Storage.EntryKeys

/-!
# Keys of other folders

A key of another folder tells a log something exactly if the rest of the folder behind the log's own has a number in
front of a hyphen (`ObjectLog.millisOfKey?_foreign`). Whatever the folders, entries with different ids have different
keys (`ObjectLog.id_eq_of_keyFor_eq`).
-/

namespace AuditTrail

namespace ObjectLog

/-- The rest of another log's folder behind the own one has a number in front of a hyphen. -/
def Admits (l other : ObjectLog) : Prop :=
  ∃ number rest, other.folder = l.root ++ (number ++ CodePoint.ofChar '-' :: rest) ∧ CodePoint.ofChar '-' ∉ number ∧
    (Decimal.readInteger number).isSome = true

private theorem slash_not_mem_nameOf {ms : Int} {id : Text} (h : CodePoint.ofChar '/' ∉ id) :
    CodePoint.ofChar '/' ∉ nameOf ms id ++ lit ".json" := by
  have hpadded : ∀ width n, CodePoint.ofChar '/' ∉ Decimal.padded width n := by
    intro width n hm
    exact absurd (Stamp.val_of_mem_padded hm) (by decide)
  have hmillis : CodePoint.ofChar '/' ∉ millisText ms := by
    rw [millisText]
    split
    · intro hm
      rcases List.mem_cons.mp hm with he | hm
      · exact absurd he (by decide)
      · exact hpadded _ _ hm
    · exact hpadded _ _
  simp only [nameOf, List.mem_append, not_or]
  exact ⟨⟨⟨hmillis, by decide⟩, h⟩, by decide⟩

/-- Behind a common folder, a text that goes on without a slash begins where the longer folder ends. -/
private theorem eq_of_root_append {l other : ObjectLog} {name rest : Text} (hn : CodePoint.ofChar '/' ∉ name)
    (h : other.root ++ name = l.root ++ rest) :
    other.folder = l.folder ∨ ∃ more, other.folder = l.root ++ more ∧ rest = more ++ CodePoint.ofChar '/' :: name := by
  have hroot : ∀ k : ObjectLog, k.root = k.folder ++ [CodePoint.ofChar '/'] := fun _ => rfl
  rcases List.append_eq_append_iff.mp h with ⟨more, hl, hname⟩ | ⟨more, hother, hrest⟩
  · -- The own folder is the longer one, so that what it has more ends in a slash of the name.
    rcases List.eq_nil_or_concat more with rfl | ⟨front, last, rfl⟩
    · rw [List.append_nil] at hl
      exact .inl (List.append_cancel_right hl).symm
    · rw [hroot l, List.concat_eq_append, ← List.append_assoc] at hl
      obtain ⟨-, hlast⟩ := List.append_inj' hl rfl
      rw [hname] at hn
      exact absurd (List.mem_append_left rest (by simp [List.cons.inj hlast])) hn
  · rcases List.eq_nil_or_concat more with rfl | ⟨front, last, rfl⟩
    · rw [List.append_nil] at hother
      exact .inl (List.append_cancel_right hother)
    · rw [hroot other, List.concat_eq_append, ← List.append_assoc] at hother
      obtain ⟨hfolder, hlast⟩ := List.append_inj' hother rfl
      refine .inr ⟨front, hfolder, ?_⟩
      rw [hrest, List.concat_eq_append, List.append_assoc, ← List.head_eq_of_cons_eq hlast]
      rfl

private theorem slash_mem_cut {more name : Text} (h : CodePoint.ofChar '-' ∉ more) (hn : CodePoint.ofChar '-' ∈ name) :
    CodePoint.ofChar '/' ∈ (Text.cut (CodePoint.ofChar '-') (more ++ CodePoint.ofChar '/' :: name)).1 := by
  obtain ⟨front, behind, rfl, hfront⟩ := List.eq_append_cons_of_mem hn
  have hcut : Text.cut (CodePoint.ofChar '-')
      (more ++ CodePoint.ofChar '/' :: front ++ CodePoint.ofChar '-' :: behind) =
        (more ++ CodePoint.ofChar '/' :: front, some behind) := by
    apply Text.cut_append
    intro hm
    rcases List.mem_append.mp hm with hm | hm
    · exact h hm
    · rcases List.mem_cons.mp hm with he | hm
      · exact absurd he (by decide)
      · exact hfront hm
  rw [List.append_assoc, List.cons_append] at hcut
  rw [hcut]
  exact List.mem_append_right more List.mem_cons_self

/-- A key of another folder tells a log something exactly if the log admits that folder. -/
theorem millisOfKey?_foreign {l other : ObjectLog} (hf : other.folder ≠ l.folder) {ms : Int} {id : Text}
    (hid : CodePoint.ofChar '/' ∉ id) :
    (l.millisOfKey? (other.root ++ (nameOf ms id ++ lit ".json"))).isSome = true ↔ l.Admits other := by
  have hname : CodePoint.ofChar '/' ∉ nameOf ms id ++ lit ".json" := slash_not_mem_nameOf hid
  cases hd : Text.dropFront? l.root (other.root ++ (nameOf ms id ++ lit ".json")) with
  | none =>
    have hno : ¬l.Admits other := by
      rintro ⟨number, rest, hfolder, -, -⟩
      have hfront : other.root ++ (nameOf ms id ++ lit ".json") = l.root ++ (number ++ CodePoint.ofChar '-' :: rest ++
          (lit "/" ++ (nameOf ms id ++ lit ".json"))) := by
        rw [root, hfolder]
        simp only [List.append_assoc]
      rw [hfront, Text.dropFront?_append] at hd
      exact absurd hd (by simp)
    simp only [hno, iff_false, millisOfKey?, hd, bind, Option.bind]
    simp
  | some behind =>
    have hsplit := Text.dropFront?_eq_some_iff.mp hd
    rcases eq_of_root_append hname hsplit with he | ⟨more, hfolder, rfl⟩
    · exact absurd he hf
    · have hkey : l.root ++ (more ++ CodePoint.ofChar '/' :: (nameOf ms id ++ lit ".json")) =
          l.root ++ (more ++ CodePoint.ofChar '/' :: nameOf ms id ++ lit ".json") := by
        simp only [List.append_assoc, List.cons_append]
      have hadmits : ∀ {number rest : Text}, other.folder = l.root ++ (number ++ CodePoint.ofChar '-' :: rest) →
          more = number ++ CodePoint.ofChar '-' :: rest := by
        intro number rest he
        exact List.append_cancel_left (hfolder.symm.trans he)
      rw [hsplit, hkey]
      by_cases hm : CodePoint.ofChar '-' ∈ more
      · obtain ⟨number, rest, rfl, hnumber⟩ := List.eq_append_cons_of_mem hm
        obtain ⟨c, t, ht⟩ : ∃ c t, rest ++ CodePoint.ofChar '/' :: nameOf ms id = c :: t :=
          List.exists_cons_of_ne_nil (by simp)
        have hcut : Text.cut (CodePoint.ofChar '-')
            (number ++ CodePoint.ofChar '-' :: rest ++ CodePoint.ofChar '/' :: nameOf ms id) = (number, some (c :: t)) := by
          rw [List.append_assoc, List.cons_append, ht, Text.cut_append hnumber]
        rw [millisOfKey?_root l hcut]
        constructor
        · exact fun hread => ⟨number, rest, hfolder, hnumber, hread⟩
        · rintro ⟨number', rest', hfolder', hnumber', hread⟩
          have hsame := congrArg (Text.cut (CodePoint.ofChar '-')) (hadmits hfolder')
          rw [Text.cut_append hnumber, Text.cut_append hnumber'] at hsame
          rwa [(Prod.mk.inj hsame).1]
      · have hhyphen : CodePoint.ofChar '-' ∈ nameOf ms id := by
          rw [nameOf]
          exact List.mem_append_left id (List.mem_append_right _ List.mem_cons_self)
        rw [millisOfKey?_root_of_noNumber l (Decimal.readInteger_eq_none_of_slash (slash_mem_cut hm hhyphen))]
        constructor
        · exact fun h => absurd h (by simp)
        · rintro ⟨number, rest, hfolder', -, -⟩
          exact absurd (hadmits hfolder' ▸ List.mem_append_right number List.mem_cons_self) hm

theorem display?_eq_some {e : Entry} {id id' : Text} (h : e.id = .text id) (hd : e.id.display? = some id') : id' = id := by
  rw [h] at hd
  exact (Option.some.inj hd).symm

/-- The key of an entry with another folder tells a log something exactly if the log admits that folder. -/
theorem isSome_millisOfKey?_iff_admits {l other : ObjectLog} (hf : other.folder ≠ l.folder) {e : Entry} {key id : Text}
    (hkey : other.keyFor e = .ok key) (hid : e.id = .text id) (hs : CodePoint.ofChar '/' ∉ id) :
    (l.millisOfKey? key).isSome = true ↔ l.Admits other := by
  obtain ⟨ms, i, -, hi, rfl⟩ := keyFor_eq_ok_iff.mp hkey
  obtain rfl := display?_eq_some hid hi
  exact millisOfKey?_foreign hf hs

theorem padded_append_ne_hyphen {width n : Nat} (hw : 0 < width) (i u : Text) :
    Decimal.padded width n ++ i ≠ CodePoint.ofChar '-' :: u := by
  have hlen : width ≤ (Decimal.padded width n).length := by
    rw [Decimal.padded_eq, Decimal.textOfDigits, List.length_map, Decimal.paddedDigits, List.length_append,
      List.length_replicate]
    omega
  obtain ⟨c, t, ht⟩ := List.exists_cons_of_length_pos (Nat.lt_of_lt_of_le hw hlen)
  intro h
  rw [ht, List.cons_append] at h
  exact hyphen_not_mem_padded width n (by rw [ht, List.head_eq_of_cons_eq h]; exact List.mem_cons_self)

/-- The id begins behind the first hyphen that is no sign. -/
theorem id_eq_of_nameOf_eq {ms ms' : Int} {id id' : Text} (h : nameOf ms id = nameOf ms' id') : id = id' := by
  have hcut : ∀ {width width' n n' : Nat}, Decimal.padded width n ++ CodePoint.ofChar '-' :: id =
      Decimal.padded width' n' ++ CodePoint.ofChar '-' :: id' → id = id' := by
    intro width width' n n' he
    have hsame := congrArg (Text.cut (CodePoint.ofChar '-')) he
    rw [Text.cut_append (hyphen_not_mem_padded width n), Text.cut_append (hyphen_not_mem_padded width' n')] at hsame
    exact Option.some.inj (Prod.mk.inj hsame).2
  have hname : ∀ m i, nameOf m i = if m < 0 then
      CodePoint.ofChar '-' :: (Decimal.padded 14 m.natAbs ++ CodePoint.ofChar '-' :: i)
        else Decimal.padded 15 m.natAbs ++ CodePoint.ofChar '-' :: i := by
    intro m i
    rw [nameOf, millisText]
    split
    · simp only [List.cons_append, List.append_assoc]
      rfl
    · simp only [List.append_assoc]
      rfl
  rw [hname, hname] at h
  by_cases hneg : ms < 0
  · by_cases hneg' : ms' < 0
    · rw [if_pos hneg, if_pos hneg'] at h
      exact hcut (List.tail_eq_of_cons_eq h)
    · rw [if_pos hneg, if_neg hneg'] at h
      exact absurd h.symm (padded_append_ne_hyphen (by decide) _ _)
  · by_cases hneg' : ms' < 0
    · rw [if_neg hneg, if_pos hneg'] at h
      exact absurd h (padded_append_ne_hyphen (by decide) _ _)
    · rw [if_neg hneg, if_neg hneg'] at h
      exact hcut h

/-- Entries whose ids have no slash have the same key only if they have the same id. -/
theorem id_eq_of_keyFor_eq {l other : ObjectLog} {e e' : Entry} {id id' key : Text} (h : l.keyFor e = .ok key)
    (h' : other.keyFor e' = .ok key) (hid : e.id = .text id) (hid' : e'.id = .text id')
    (hs : CodePoint.ofChar '/' ∉ id) (hs' : CodePoint.ofChar '/' ∉ id') : id = id' := by
  obtain ⟨ms, i, -, hi, hkey⟩ := keyFor_eq_ok_iff.mp h
  obtain ⟨ms', i', -, hi', hkey'⟩ := keyFor_eq_ok_iff.mp h'
  obtain rfl := display?_eq_some hid hi
  obtain rfl := display?_eq_some hid' hi'
  have hsame : other.root ++ (nameOf ms' i' ++ lit ".json") = l.root ++ (nameOf ms i ++ lit ".json") :=
    hkey'.symm.trans hkey
  rcases eq_of_root_append (slash_not_mem_nameOf hs') hsame with he | ⟨more, -, hrest⟩
  · rw [root, root, he] at hsame
    exact (id_eq_of_nameOf_eq (List.append_cancel_right (List.append_cancel_left hsame))).symm
  · exact absurd (hrest ▸ List.mem_append_right more List.mem_cons_self) (slash_not_mem_nameOf hs)

end ObjectLog

end AuditTrail
