import AuditTrail.Proofs.Storage.BucketLog
import AuditTrail.Proofs.Storage.KeySightings
import AuditTrail.Proofs.Storage.LogGrowth
import AuditTrail.Proofs.Time.StampOrder
import Mathlib.Data.List.Permutation

/-!
# The order of keys

A log sorts its keys by the number in them, and others sort them as texts. For entries from 1970 on these are one order,
as the numbers have one width up to the end of the calendar (`ObjectLog.keyLe_mark`). Whatever else is put between the
entries of a log under keys that tell nothing, and however the listing of its bucket falls on pages, the log therefore
lists each entry's key once, in an order that is that of the keys as texts and of the entries' milliseconds
(`ObjectLog.keys_in_time_order`).
-/

namespace AuditTrail

open FileLog (Line)

/-- So many of the ids of a source are not empty, and all are different. -/
structure IdSource.IsFresh (s : IdSource) (count : Nat) : Prop where
  nonempty : ∀ n < count, s.nth n ≠ []
  distinct : ∀ n < count, ∀ m < n, s.nth m ≠ s.nth n

/-- An entry with an instant from 1970 on that has a reading in UTC, and a text for its id, which is not empty. -/
structure Entry.IsKeyed (e : Entry) : Prop where
  utc : e.createdAt.HasUtc
  sinceEpoch : Instant.epochWall ≤ e.createdAt.moment
  id : ∃ t, e.id = .text t ∧ t ≠ []

namespace ObjectLog

variable {l : ObjectLog} {e f : Entry}

/-- The key of an entry, and the number in it. -/
def mark (l : ObjectLog) (e : Entry) : Int × Text :=
  (e.createdAt.milli, l.root ++ (nameOf e.createdAt.milli e.id.display ++ lit ".json"))

def told? (l : ObjectLog) (key : Text) : Option (Int × Text) := (l.millisOfKey? key).map (·, key)

private theorem keyFor_eq_mark (h : e.IsKeyed) : l.keyFor e = .ok (l.mark e).2 := by
  obtain ⟨t, ht, -⟩ := h.id
  refine keyFor_eq_ok_iff.mpr ⟨_, t, h.utc.epochMillis_eq_milli, by rw [ht]; rfl, ?_⟩
  rw [mark, ht]
  rfl

private theorem told?_mark (h : e.IsKeyed) : l.told? (l.mark e).2 = some (l.mark e) := by
  obtain ⟨t, ht, hne⟩ := h.id
  have htold := millisOfKey?_keyFor (keyFor_eq_mark (l := l) h) h.utc.epochMillis_eq_milli (by rw [ht]; rfl) hne
  rw [told?, htold, if_pos (Instant.milli_nonneg_iff.mpr h.sinceEpoch)]
  rfl

private theorem id_eq_of_mark_eq (he : e.IsKeyed) (hf : f.IsKeyed) (h : (l.mark e).2 = (l.mark f).2) : e.id = f.id := by
  obtain ⟨t, ht, -⟩ := he.id
  obtain ⟨u, hu, -⟩ := hf.id
  have hname := id_eq_of_nameOf_eq (List.append_cancel_right (List.append_cancel_left h))
  rw [ht, hu] at hname ⊢
  exact congrArg Value.text hname

private theorem lt_mark_iff (he : e.IsKeyed) (hf : f.IsKeyed) : Text.lt (l.mark e).2 (l.mark f).2 = true ↔
    e.createdAt.milli < f.createdAt.milli ∨ e.createdAt.milli = f.createdAt.milli ∧
      Text.lt (e.id.display ++ lit ".json") (f.id.display ++ lit ".json") = true := by
  have hname : ∀ {g : Entry}, g.IsKeyed → ∃ n : Nat, g.createdAt.milli = n ∧ n < 10 ^ 15 ∧
      nameOf g.createdAt.milli g.id.display ++ lit ".json" =
        Decimal.padded 15 n ++ (lit "-" ++ (g.id.display ++ lit ".json")) := by
    intro g hg
    obtain ⟨n, hn⟩ := Int.eq_ofNat_of_zero_le (Instant.milli_nonneg_iff.mpr hg.sinceEpoch)
    have hlt := Instant.epochMillis_lt hg.utc.epochMillis_eq_milli
    refine ⟨n, hn, by omega, ?_⟩
    rw [nameOf, millisText, hn, if_neg (by omega), Int.natAbs_natCast]
    simp only [List.append_assoc]
  obtain ⟨m, hm, hmlt, hmname⟩ := hname he
  obtain ⟨n, hn, hnlt, hnname⟩ := hname hf
  simp only [mark]
  rw [Text.lt_append_left, hmname, hnname, Decimal.lt_padded_append_iff (by decide) hmlt hnlt, Text.lt_append_left, hm, hn,
    Int.ofNat_lt, Int.natCast_inj]

/-- The order of keys by their numbers is their order as texts. -/
theorem keyLe_mark (he : e.IsKeyed) (hf : f.IsKeyed) : keyLe (l.mark e) (l.mark f) = Text.le (l.mark e).2 (l.mark f).2 := by
  have hlt := lt_mark_iff (l := l) hf he
  rw [Text.lt_iff_not_le] at hlt
  rw [Bool.eq_iff_iff, keyLe, Bool.or_eq_true, Bool.and_eq_true, decide_eq_true_eq, beq_iff_eq]
  have hmark : ∀ g, (l.mark g).1 = g.createdAt.milli := fun _ => rfl
  rw [hmark, hmark]
  constructor
  · rintro (hm | ⟨-, hle⟩)
    · by_contra hn
      rcases hlt.mp hn with h | ⟨h, -⟩ <;> omega
    · exact hle
  · intro hle
    have hn := mt hlt.mpr (not_not_intro hle)
    rcases Int.lt_trichotomy e.createdAt.milli f.createdAt.milli with h | h | h
    · exact .inl h
    · exact .inr ⟨h, hle⟩
    · exact absurd (.inl h) hn

theorem fst_le_of_keyLe {a b : Int × Text} (h : keyLe a b = true) : a.1 ≤ b.1 := by
  simp only [keyLe, Bool.or_eq_true, Bool.and_eq_true, decide_eq_true_eq, beq_iff_eq] at h
  omega

/-- The keys of entries on the pages of a listing, in order. -/
def pagedKeys (l : ObjectLog) (pages : List (List Text)) : List (Int × Text) :=
  (pages.flatMap fun page => page.filterMap l.told?).mergeSort keyLe

/-- Where the pages of a listing end makes no difference. -/
private theorem pagedKeys_eq (l : ObjectLog) (pages : List (List Text)) :
    l.pagedKeys pages = l.entryKeys pages.flatten := by
  rw [pagedKeys, entryKeys, List.flatMap_def, ← List.filterMap_flatten]
  rfl

/-- Neither does their order. -/
private theorem entryKeys_perm (l : ObjectLog) {listed listed' : List Text} (h : listed.Perm listed') :
    l.entryKeys listed = l.entryKeys listed' := by
  have hsorted : ∀ ks, (l.entryKeys ks).Pairwise fun a b => keyLe a b = true :=
    fun ks => List.pairwise_mergeSort keyLe_trans keyLe_total _
  have hperm : (l.entryKeys listed).Perm (l.entryKeys listed') :=
    (List.mergeSort_perm _ keyLe).trans ((h.filterMap l.told?).trans (List.mergeSort_perm _ keyLe).symm)
  exact hperm.eq_of_pairwise (fun a b _ _ => keyLe_antisymm a b) (hsorted listed) (hsorted listed')

private theorem listing_eq (l : ObjectLog) (b : Bucket) : l.listing b = (b.keys.filterMap l.told?).mergeSort keyLe := by
  rw [listing, entryKeys, ObjectService.keysUnder, List.filterMap_filter]
  congr 1
  apply List.filterMap_congr
  intro key _
  split
  · rfl
  · next hroot =>
    cases hm : l.millisOfKey? key with
    | none => rw [told?, hm, Option.map_none]
    | some ms => exact absurd (isSome_dropFront?_of_millisOfKey? hm) hroot

/-- What is put into a bucket: an entry of a log, or an object under a key. -/
inductive Deposit where
  | entry (d : Draft)
  | object (key : Text) (bs : List UInt8)

namespace Deposit

def run (l : ObjectLog) : Deposit → Objects → List Entry × Objects
  | entry d, w =>
    match l.create d w with
    | (.ok e, w) => ([e], w)
    | (.error _, w) => ([], w)
  | object key bs, w => ([], { w with service := (w.service.put l.bucket key bs).2 })

/-- Deposits one after the other, with the entries that were acknowledged in order. -/
def runAll (l : ObjectLog) : List Deposit → Objects → List Entry × Objects
  | [], w => ([], w)
  | d :: ds, w =>
    let first := d.run l w
    let rest := runAll l ds first.2
    (first.1 ++ rest.1, rest.2)

/-- The deposit is an entry from 1970 on, or an object under a key that tells nothing. -/
def IsApart (l : ObjectLog) : Deposit → Prop
  | entry d => Instant.epochWall ≤ d.createdAt.moment
  | object key _ => l.millisOfKey? key = none

end Deposit

/-- The keys of a bucket that tell a number are those of given entries, which have different ids. -/
structure Stocks (l : ObjectLog) (stored : List Entry) (w : Objects) (b : Bucket) : Prop where
  serves : w.service.Serves l.bucket b
  told : (b.keys.filterMap l.told?).Perm (stored.map l.mark)
  keyed : ∀ e ∈ stored, e.IsKeyed
  numbered : ∀ e ∈ stored, ∃ n < w.ids.taken, e.id = .text (w.ids.nth n)
  distinct : stored.Pairwise fun e f => e.id ≠ f.id

section Depositing

variable {stored : List Entry} {w : Objects} {b : Bucket}

private theorem Stocks.empty (hs : w.service.Serves l.bucket []) : l.Stocks [] w [] where
  serves := hs
  told := .refl _
  keyed _ he := absurd he List.not_mem_nil
  numbered _ he := absurd he List.not_mem_nil
  distinct := .nil

private theorem Stocks.of_told (h : l.Stocks stored w b) {w' : Objects} {b' : Bucket}
    (hs : w'.service.Serves l.bucket b')
    (hb : b'.keys.filterMap l.told? = b.keys.filterMap l.told?) (hids : w'.ids = w.ids ∨ w'.ids = w.ids.take) :
    l.Stocks stored w' b' := by
  refine ⟨hs, hb ▸ h.told, h.keyed, ?_, h.distinct⟩
  intro e he
  obtain ⟨n, hn, hid⟩ := h.numbered e he
  rcases hids with hsame | htake
  · exact hsame ▸ ⟨n, hn, hid⟩
  · exact htake ▸ ⟨n, Nat.lt_succ_of_lt hn, hid⟩

private theorem Stocks.put (h : l.Stocks stored w b) {count : Nat} (hids : w.ids.IsFresh count)
    (hcount : w.ids.taken < count) {bs : List UInt8} {w' : Objects} (he : e.IsKeyed) (hid : e.id = .text w.ids.next)
    (hs : w'.service.Serves l.bucket (b.put (l.mark e).2 bs)) (hw : w'.ids = w.ids.take) :
    l.Stocks (stored ++ [e]) w' (b.put (l.mark e).2 bs) := by
  have hother : ∀ f ∈ stored, f.id ≠ e.id := by
    intro f hf hsame
    obtain ⟨n, hn, hfid⟩ := h.numbered f hf
    exact hids.distinct _ hcount n hn (Value.text.inj (hfid.symm.trans (hsame.trans hid)))
  -- A key that was there before tells the number of another entry, whose id is another one.
  have hnew : (l.mark e).2 ∉ b.keys := by
    intro hm
    have htold : l.mark e ∈ b.keys.filterMap l.told? := List.mem_filterMap.mpr ⟨_, hm, told?_mark he⟩
    obtain ⟨f, hf, hmark⟩ := List.mem_map.mp (h.told.mem_iff.mp htold)
    exact hother f hf (id_eq_of_mark_eq (h.keyed f hf) he (congrArg Prod.snd hmark))
  refine ⟨hs, ?_, ?_, ?_, ?_⟩
  · have hkeys := (Bucket.keys_put hnew bs).filterMap l.told?
    rw [List.filterMap_cons_some (told?_mark he)] at hkeys
    rw [List.map_append]
    exact hkeys.trans ((h.told.cons _).trans (List.perm_append_singleton _ _).symm)
  · exact List.forall_mem_append.mpr ⟨h.keyed, List.forall_mem_singleton.mpr he⟩
  · rw [hw]
    refine List.forall_mem_append.mpr ⟨?_, List.forall_mem_singleton.mpr ⟨w.ids.taken, Nat.lt_succ_self _, hid⟩⟩
    intro f hf
    obtain ⟨n, hn, hfid⟩ := h.numbered f hf
    exact ⟨n, Nat.lt_succ_of_lt hn, hfid⟩
  · refine List.pairwise_append.mpr ⟨h.distinct, List.pairwise_singleton _ e, ?_⟩
    intro f hf g hg
    rw [List.mem_singleton.mp hg]
    exact hother f hf

/-- A deposit adds the entry that it acknowledges, and nothing else that tells a number. -/
private theorem Stocks.run (h : l.Stocks stored w b) {d : Deposit} (hd : d.IsApart l) {count : Nat}
    (hids : w.ids.IsFresh count)
    (hcount : w.ids.taken < count) : ∃ b', l.Stocks (stored ++ (d.run l w).1) (d.run l w).2 b' ∧
      ((d.run l w).2.ids = w.ids ∨ (d.run l w).2.ids = w.ids.take) := by
  cases d with
  | object key bs =>
    rw [Deposit.run, List.append_nil]
    have htold : l.told? key = none := by rw [told?, show l.millisOfKey? key = none from hd, Option.map_none]
    rcases (ObjectService.put_cases h.serves key bs).1 with ⟨-, hs⟩ | ⟨-, hs⟩
    · exact ⟨b, h.of_told hs rfl (.inl rfl), .inl rfl⟩
    · exact ⟨_, h.of_told hs (Bucket.filterMap_keys_put htold bs b) (.inl rfl), .inl rfl⟩
  | entry d =>
    obtain ⟨htake, hcases⟩ := create_cases h.serves d
    rw [Deposit.run]
    generalize l.create d w = out at htake hcases
    obtain ⟨result, w'⟩ := out
    rcases hcases with ⟨⟨fault, rfl⟩, hs⟩ | ⟨r, key, hr, hkey, rfl, hs⟩
    · rw [List.append_nil]
      exact ⟨b, h.of_told hs rfl (.inr htake), .inr htake⟩
    · have hid : r.entry.id = .text w.ids.next := by rw [hr]; rfl
      have hkeyed : r.entry.IsKeyed :=
        ⟨r.hasUtc_entry, by rw [hr]; exact hd, _, hid, hids.nonempty _ hcount⟩
      obtain rfl := Except.ok.inj (hkey.symm.trans (keyFor_eq_mark hkeyed))
      exact ⟨_, h.put hids hcount hkeyed hid hs htake, .inr htake⟩

private theorem Stocks.runAll (ds : List Deposit) :
    ∀ {stored : List Entry} {w : Objects} {b : Bucket}, l.Stocks stored w b →
    (∀ d ∈ ds, d.IsApart l) → w.ids.IsFresh (w.ids.taken + ds.length) →
    ∃ b', l.Stocks (stored ++ (Deposit.runAll l ds w).1) (Deposit.runAll l ds w).2 b' := by
  induction ds with
  | nil =>
    intro stored w b h _ _
    exact ⟨b, by rwa [Deposit.runAll, List.append_nil]⟩
  | cons d ds ih =>
    intro stored w b h hd hids
    obtain ⟨hfirst, hrest⟩ := List.forall_mem_cons.mp hd
    obtain ⟨b', h', hnext⟩ := h.run hfirst hids (by rw [List.length_cons]; omega)
    have hleft : (d.run l w).2.ids.IsFresh ((d.run l w).2.ids.taken + ds.length) := by
      rw [List.length_cons] at hids
      rcases hnext with hsame | htake
      · rw [hsame]
        exact ⟨fun n hn => hids.nonempty n (by omega), fun n hn => hids.distinct n (by omega)⟩
      · have hcount : w.ids.take.taken = w.ids.taken + 1 := rfl
        rw [htake, hcount]
        exact ⟨fun n hn => hids.nonempty n (by omega), fun n hn => hids.distinct n (by omega)⟩
    obtain ⟨b'', h''⟩ := ih h' hrest hleft
    exact ⟨b'', by rwa [List.append_assoc] at h''⟩

private theorem Stocks.listing_eq_map (h : l.Stocks stored w b) : ∃ es : List Entry, es.Perm stored ∧
    l.listing b = es.map l.mark ∧ es.Pairwise fun e f => Text.lt (l.mark e).2 (l.mark f).2 = true ∧
      e.createdAt.milli ≤ f.createdAt.milli := by
  let le : Entry → Entry → Bool := fun e f => keyLe (l.mark e) (l.mark f)
  have hsorted : (stored.mergeSort le).Pairwise fun e f => le e f = true :=
    List.pairwise_mergeSort (fun a b c => keyLe_trans (l.mark a) (l.mark b) (l.mark c))
      (fun a b => keyLe_total (l.mark a) (l.mark b)) _
  have hperm : (stored.mergeSort le).Perm stored := List.mergeSort_perm _ _
  refine ⟨stored.mergeSort le, hperm, ?_, ?_⟩
  · rw [listing_eq]
    have hmarks := (List.mergeSort_perm _ keyLe).trans (h.told.trans (hperm.map l.mark).symm)
    exact hmarks.eq_of_pairwise (fun a b _ _ => keyLe_antisymm a b)
      (List.pairwise_mergeSort keyLe_trans keyLe_total _) (List.pairwise_map.mpr hsorted)
  · have hdistinct := (hperm.pairwise_iff fun hne => Ne.symm hne).mpr h.distinct
    refine (hsorted.and hdistinct).imp_of_mem ?_
    rintro e f he hf ⟨hle, hne⟩
    have hek := h.keyed e (hperm.mem_iff.mp he)
    have hfk := h.keyed f (hperm.mem_iff.mp hf)
    have htext : Text.le (l.mark e).2 (l.mark f).2 = true := (keyLe_mark hek hfk).symm.trans hle
    refine ⟨?_, ?_⟩
    · rw [Text.lt_iff_not_le]
      intro hback
      exact hne (id_eq_of_mark_eq hek hfk (Text.le_antisymm _ _ htext hback))
    · exact fst_le_of_keyLe hle

end Depositing

/-- Key order is time order. Entries from 1970 on with different ids are put into an empty bucket, and between them
objects under keys that tell nothing. However the listing falls on pages, and in whatever order these come, the log
finds the key and the millisecond of each entry that was acknowledged, once, and nothing else. They are in the order of
the keys as texts, which is an order of the milliseconds, so that the last one is of a latest entry. -/
theorem keys_in_time_order (l : ObjectLog) {w : Objects} (hs : w.service.Serves l.bucket []) {ds : List Deposit}
    (hd : ∀ d ∈ ds, d.IsApart l) (hids : w.ids.IsFresh (w.ids.taken + ds.length)) :
    let stored := (Deposit.runAll l ds w).1
    let after := (Deposit.runAll l ds w).2
    ∃ (b : Bucket) (es : List Entry) (keys : List (Int × Text)),
      after.service.Serves l.bucket b ∧ es.Perm stored ∧
      (∀ pages : List (List Text), pages.flatten.Perm (ObjectService.keysUnder l.root b) → l.pagedKeys pages = keys) ∧
      (after.service.IsCalm → l.listKeys after.service = (.ok keys, after.service)) ∧
      List.Forall₂ (fun k e => l.keyFor e = .ok k.2 ∧ e.createdAt.epochMillis = .ok k.1) keys es ∧
      keys.Pairwise (fun k k' => Text.lt k.2 k'.2 = true ∧ k.1 ≤ k'.1) ∧
      ∀ e, es.getLast? = some e → ∀ f ∈ stored, f.createdAt.milli ≤ e.createdAt.milli := by
  intro stored after
  obtain ⟨b, h⟩ := (Stocks.empty hs).runAll ds hd hids
  rw [List.nil_append] at h
  obtain ⟨es, hperm, hkeys, hsorted⟩ := h.listing_eq_map
  have hkeyed : ∀ e ∈ es, e.IsKeyed := fun e he => h.keyed e (hperm.mem_iff.mp he)
  refine ⟨b, es, l.listing b, h.serves, hperm, ?_, (meets_listKeys h.serves).calm, ?_, ?_, ?_⟩
  · intro pages hp
    rw [pagedKeys_eq, entryKeys_perm l hp, listing]
  · rw [hkeys, List.forall₂_map_left_iff, List.forall₂_same]
    exact fun e he => ⟨keyFor_eq_mark (hkeyed e he), (hkeyed e he).utc.epochMillis_eq_milli⟩
  · rw [hkeys, List.pairwise_map]
    exact hsorted
  · intro e he f hf
    obtain ⟨front, rfl⟩ := List.getLast?_eq_some_iff.mp he
    rcases List.mem_append.mp (hperm.mem_iff.mpr hf) with hm | hm
    · exact ((List.pairwise_append.mp hsorted).2.2 f hm e List.mem_cons_self).2
    · rw [List.mem_singleton.mp hm]

/-- An entry is put, then an object of other things, then an entry from the first millisecond of 1970, and the bucket
lists one key on each page. -/
theorem keys_in_time_order_of_late_entry :
    let l : ObjectLog := .ofFolder (lit "b") (lit "audit")
    let w : Objects := ⟨⟨[(lit "b", [])], fun _ => [], 1⟩, default⟩
    let d : Draft := ⟨.text (lit "a"), .text (lit "m"), .null, .list [], .text (lit "0"), .text (lit "0"),
      ⟨63900000000000123, some 0, by decide⟩⟩
    let early : Draft := { d with createdAt := ⟨62135596800000999, some 0, by decide⟩ }
    let after := (Deposit.runAll l [.entry d, .object (lit "audit/notes-1.json") [], .entry early] w).2
    ∃ first last : Text, l.listKeys after.service = (.ok [(0, first), (1764403200000, last)], after.service) ∧
      Text.lt first last = true := by
  intro l w d early after
  obtain ⟨r, hr, -⟩ := Line.exists_of_bare (t := d.createdAt) rfl w.ids.next (by decide)
  obtain ⟨q, hq, -⟩ := Line.exists_of_bare (t := early.createdAt) rfl w.ids.take.next (by decide)
  have hs : w.service.Serves l.bucket [] := ⟨by decide, rfl, fun _ hc _ => List.mem_singleton.mp hc⟩
  have hkeyed : ∀ (r : Line) (t : Instant) (id : Text), r.entry.createdAt = t → r.entry.id = .text id → id ≠ [] →
      (Instant.epochWall : Int) ≤ t.moment → r.entry.IsKeyed := by
    rintro r t id rfl hid hne hsince
    exact ⟨r.hasUtc_entry, hsince, id, hid, hne⟩
  have hrk := hkeyed r d.createdAt _ (by rw [hr]) (by rw [hr]) (by decide) (by decide +kernel)
  have hqk := hkeyed q early.createdAt _ (by rw [hq]) (by rw [hq]) (by decide) (by decide +kernel)
  obtain ⟨s, hfirst, hs1, hc1⟩ := create_at_key hs (fun _ => rfl) (d := d) (keyFor_eq_mark hrk) hr
  obtain ⟨hput, hcalm⟩ := ObjectService.put_cases hs1 (lit "audit/notes-1.json") []
  obtain ⟨hok, hc2⟩ := hcalm hc1
  have hs2 := (hput.resolve_left fun ⟨⟨f, hf⟩, _⟩ => absurd (hok.symm.trans hf) (by simp)).2
  obtain ⟨s', hsecond, -, hc3⟩ := create_at_key (w := ⟨_, w.ids.take⟩) hs2 hc2 (d := early) (keyFor_eq_mark hqk) hq
  have hrun : Deposit.runAll l [.entry d, .object (lit "audit/notes-1.json") [], .entry early] w =
      ([r.entry, q.entry], ⟨s', w.ids.take.take⟩) := by
    simp only [Deposit.runAll, Deposit.run, hfirst, hsecond]
    rfl
  have hapart : ∀ x ∈ [Deposit.entry d, .object (lit "audit/notes-1.json") [], .entry early], x.IsApart l := by
    have hnone : l.millisOfKey? (lit "audit/notes-1.json") = none := by decide
    have hsince : (Instant.epochWall : Int) ≤ d.createdAt.moment ∧ (Instant.epochWall : Int) ≤ early.createdAt.moment := by
      decide +kernel
    simp only [List.mem_cons, List.not_mem_nil, or_false, forall_eq_or_imp, forall_eq]
    exact ⟨hsince.1, hnone, hsince.2⟩
  obtain ⟨b, es, keys, -, hperm, -, hlist, hmarks, hsorted, -⟩ :=
    keys_in_time_order l hs hapart ⟨by decide +kernel, by decide +kernel⟩
  rw [hrun] at hperm hlist
  have hmillis : r.entry.createdAt.epochMillis = .ok 1764403200000 ∧ q.entry.createdAt.epochMillis = .ok 0 := by
    rw [hrk.utc.epochMillis_eq_milli, hqk.utc.epochMillis_eq_milli, hr, hq]
    exact ⟨congrArg Except.ok (by decide +kernel), congrArg Except.ok (by decide +kernel)⟩
  have hafter : after = ⟨s', w.ids.take.take⟩ := congrArg Prod.snd hrun
  rw [hafter, hlist hc3]
  -- Two entries have two orders, of which one has the later millisecond first.
  rcases List.perm_pair.mp hperm with rfl | rfl
  · obtain ⟨k, _, ⟨-, hk⟩, hrest, rfl⟩ := List.forall₂_cons_right_iff.mp hmarks
    obtain ⟨k', _, ⟨-, hk'⟩, -, rfl⟩ := List.forall₂_cons_right_iff.mp hrest
    have hle := ((List.pairwise_cons.mp hsorted).1 k' List.mem_cons_self).2
    rw [← Except.ok.inj (hmillis.1.symm.trans hk), ← Except.ok.inj (hmillis.2.symm.trans hk')] at hle
    exact absurd hle (by decide)
  · obtain ⟨⟨m, key⟩, _, ⟨-, hk⟩, hrest, rfl⟩ := List.forall₂_cons_right_iff.mp hmarks
    obtain ⟨⟨m', key'⟩, _, ⟨-, hk'⟩, hnil, rfl⟩ := List.forall₂_cons_right_iff.mp hrest
    obtain rfl := List.forall₂_nil_right_iff.mp hnil
    obtain rfl := Except.ok.inj (hmillis.2.symm.trans hk)
    obtain rfl := Except.ok.inj (hmillis.1.symm.trans hk')
    exact ⟨key, key', rfl, ((List.pairwise_cons.mp hsorted).1 _ List.mem_cons_self).1⟩

end ObjectLog

end AuditTrail
