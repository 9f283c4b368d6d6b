import AuditTrail.Proofs.Chain.HashInput
import AuditTrail.Proofs.Chain.Verification

/-!
# Tamper evidence

Whoever keeps the last hash of a chain can tell the chain from every other one. Two stores whose
entries are all found intact and end in one hash hold entries that agree, unless the digest of their
hash inputs failed: two inputs collided, or one of them has the digest that stands before the first
entry (`agree_of_same_tip`).
-/

namespace AuditTrail

namespace Entry

/-- Two entries agree in all that a hash covers, and in their hashes. -/
structure Agree (a b : Entry) : Prop where
  previousHash : a.previousHash = b.previousHash
  eventType : a.eventType = b.eventType
  createdAt : ∃ u v, a.createdAt.toUtc = .ok u ∧ b.createdAt.toUtc = .ok v ∧ u.truncate = v.truncate
  details : ∃ t, Canonical.encode a.details = .ok t ∧ Canonical.encode b.details = .ok t
  currentHash : a.currentHash = b.currentHash

/-- The hash inputs of two entries are different octets with one digest. -/
def Collide (a b : Entry) : Prop :=
  ∃ x y, a.hashInput = .ok x ∧ b.hashInput = .ok y ∧ Utf8.encode x ≠ Utf8.encode y ∧
    Sha256.digest (Utf8.encode x) = Sha256.digest (Utf8.encode y)

/-- The hash input of an entry has the digest of sixty-four zeros. -/
def HitsGenesis (e : Entry) : Prop :=
  ∃ x, e.hashInput = .ok x ∧ Sha256.hexDigest (Utf8.encode x) = genesisHash

private theorem hashInput_eq_of_currentHash {a b : Entry} (ha : a.IsSealed) (hb : b.IsSealed)
    (hn : ¬a.Collide b) (h : a.currentHash = b.currentHash) :
    ∃ x, a.hashInput = .ok x ∧ b.hashInput = .ok x := by
  obtain ⟨x, hx, -, hcx⟩ := ha.exists_hashInput
  obtain ⟨y, hy, -, hcy⟩ := hb.exists_hashInput
  have hd : Sha256.hexDigest (Utf8.encode x) = Sha256.hexDigest (Utf8.encode y) := by
    rw [hcx, hcy] at h
    exact Value.text.inj h
  have he : Utf8.encode x = Utf8.encode y := by
    by_cases he : Utf8.encode x = Utf8.encode y
    · exact he
    · exact absurd ⟨x, y, hx, hy, he, Sha256.hexDigest_injective hd⟩ hn
  have hxy : x = y := Utf8.encode_injective he
  exact ⟨x, hx, hxy ▸ hy⟩

private theorem agree_of_hashInput {a b : Entry} {p q x : Text} (hp : bar ∉ p) (hq : bar ∉ q)
    (ha : a.previousHash = .text p) (hb : b.previousHash = .text q)
    (hta : a.eventType.isText = true) (htb : b.eventType.isText = true)
    (hx : a.hashInput = .ok x) (hy : b.hashInput = .ok x) (hc : a.currentHash = b.currentHash) :
    a.Agree b := by
  obtain ⟨t, ht⟩ := Value.exists_of_isText hta
  obtain ⟨u, hu⟩ := Value.exists_of_isText htb
  rw [hashInput, ha, ht, Link.hashInput_eq_ok_iff] at hx
  rw [hashInput, hb, hu, Link.hashInput_eq_ok_iff] at hy
  obtain ⟨body, stamp, hd, hs, rfl⟩ := hx
  obtain ⟨body', stamp', hd', hs', he⟩ := hy
  obtain ⟨rfl, rfl, rfl, rfl⟩ := Link.parts_injective hp hq (Link.bar_not_mem_of_write hs)
    (Link.bar_not_mem_of_write hs') (Canonical.balanced_of_encode hd) (Canonical.balanced_of_encode hd') he
  obtain ⟨-, v, hv, rfl⟩ := Stamp.write_eq_ok_iff.mp hs
  obtain ⟨-, w, hw, hvw⟩ := Stamp.write_eq_ok_iff.mp hs'
  have hm := Stamp.ofUtcWall_injective v.inRange w.inRange hvw
  exact ⟨ha.trans hb.symm, ht.trans hu.symm, ⟨v, w, hv, hw, Instant.truncate_eq_of_milli hv hw hm⟩,
    ⟨body, hd, hd'⟩, hc⟩

end Entry

namespace Chain

private theorem bar_not_mem_genesisHash : bar ∉ genesisHash := by decide

private theorem bar_not_mem_hexDigest (bs : List UInt8) : bar ∉ Sha256.hexDigest bs := by
  intro h
  have hv := Sha256.val_of_mem_hexDigest h
  rw [bar, CodePoint.val_ofChar] at hv
  exact absurd hv (by decide)

private theorem exists_tip_without_bar {es : List Entry} (h : Linked (.text genesisHash) es) :
    ∃ t, tip (.text genesisHash) es = .text t ∧ bar ∉ t := by
  rcases List.eq_nil_or_concat es with rfl | ⟨front, e, rfl⟩
  · exact ⟨genesisHash, rfl, bar_not_mem_genesisHash⟩
  · rw [List.concat_eq_append] at h ⊢
    obtain ⟨x, -, -, hc⟩ := ((linked_concat _ front e).mp h).2.2.exists_hashInput
    rw [tip_concat, hc]
    exact ⟨_, rfl, bar_not_mem_hexDigest _⟩

private theorem eq_nil_of_tip_genesis {es : List Entry} (h : Linked (.text genesisHash) es)
    (hg : ∀ e ∈ es, ¬e.HitsGenesis) (ht : tip (.text genesisHash) es = .text genesisHash) : es = [] := by
  rcases List.eq_nil_or_concat es with rfl | ⟨front, e, rfl⟩
  · rfl
  · rw [List.concat_eq_append] at h hg ht
    obtain ⟨x, hx, -, hc⟩ := ((linked_concat _ front e).mp h).2.2.exists_hashInput
    rw [tip_concat, hc] at ht
    exact absurd ⟨x, hx, Value.text.inj ht⟩ (hg e (List.mem_append_right front (List.mem_singleton.mpr rfl)))

/-- Linked lists with one tip agree entry by entry, unless the digest failed. The induction goes from
the last entries to the first ones, because it is the last hashes that are known to be equal. -/
private theorem agree_of_tip {as bs : List Entry} (ha : Linked (.text genesisHash) as)
    (hb : Linked (.text genesisHash) bs) (hta : ∀ e ∈ as, e.eventType.isText = true)
    (htb : ∀ e ∈ bs, e.eventType.isText = true) (hn : ∀ a ∈ as, ∀ b ∈ bs, ¬a.Collide b)
    (hga : ∀ e ∈ as, ¬e.HitsGenesis) (hgb : ∀ e ∈ bs, ¬e.HitsGenesis)
    (ht : tip (.text genesisHash) as = tip (.text genesisHash) bs) :
    as.length = bs.length ∧ ∀ p ∈ as.zip bs, Entry.Agree p.1 p.2 := by
  induction hl : as.length generalizing as bs with
  | zero =>
    obtain rfl := List.length_eq_zero_iff.mp hl
    obtain rfl := eq_nil_of_tip_genesis hb hgb ht.symm
    exact ⟨rfl, by simp⟩
  | succ n ih =>
    rcases List.eq_nil_or_concat bs with rfl | ⟨front', b, rfl⟩
    · obtain rfl := eq_nil_of_tip_genesis ha hga ht
      simp at hl
    rcases List.eq_nil_or_concat as with rfl | ⟨front, a, rfl⟩
    · simp at hl
    simp only [List.concat_eq_append] at ha hb hta htb hn hga hgb ht hl ⊢
    have hlf : front.length = n := by simpa using hl
    have hma : a ∈ front ++ [a] := List.mem_append_right front (List.mem_singleton.mpr rfl)
    have hmb : b ∈ front' ++ [b] := List.mem_append_right front' (List.mem_singleton.mpr rfl)
    obtain ⟨hfa, hpa, hsa⟩ := (linked_concat _ front a).mp ha
    obtain ⟨hfb, hpb, hsb⟩ := (linked_concat _ front' b).mp hb
    rw [tip_concat, tip_concat] at ht
    obtain ⟨x, hx, hy⟩ := Entry.hashInput_eq_of_currentHash hsa hsb (hn a hma b hmb) ht
    obtain ⟨p, hp, hbp⟩ := exists_tip_without_bar hfa
    obtain ⟨q, hq, hbq⟩ := exists_tip_without_bar hfb
    have hab := Entry.agree_of_hashInput hbp hbq (hpa.trans hp) (hpb.trans hq) (hta a hma) (htb b hmb) hx hy ht
    have hfront := ih hfa hfb (fun e he => hta e (List.mem_append_left _ he))
      (fun e he => htb e (List.mem_append_left _ he))
      (fun e he f hf => hn e (List.mem_append_left _ he) f (List.mem_append_left _ hf))
      (fun e he => hga e (List.mem_append_left _ he)) (fun e he => hgb e (List.mem_append_left _ he))
      (by rw [← hpa, ← hpb, hab.previousHash]) hlf
    refine ⟨by simp [hfront.1], ?_⟩
    intro r hr
    rw [List.zip_append (hlf.trans hfront.1)] at hr
    rcases List.mem_append.mp hr with hm | hm
    · exact hfront.2 r hm
    · rw [List.mem_singleton.mp hm]
      exact hab

end Chain

namespace Handle

/-- A store holds entries with texts as event types, and a verification of a range around all of them
has found them intact. -/
structure Vouched (h : Handle) (s : Site) (es : List Entry) : Prop where
  holds : h.Holds s es
  aware : ∀ e ∈ es, e.createdAt.isAware = true
  named : ∀ e ∈ es, e.eventType.isText = true
  intact : ∃ limit start finish watch r,
    (∀ e ∈ es, start.moment ≤ e.createdAt.moment ∧ e.createdAt.moment ≤ finish.moment) ∧
      (Verifier.verify h.store limit start finish s watch).1 = .ok r ∧ r.isIntact = true

private theorem Vouched.linked {h : Handle} {s : Site} {es : List Entry} (hv : h.Vouched s es) :
    Chain.Linked (.text genesisHash) es := by
  obtain ⟨limit, start, finish, watch, r, hc, ho, hi⟩ := hv.intact
  exact Verifier.linked_of_verify (lists_of_holds hv.holds) hv.aware hc ho hi

/-- Two stores whose entries are all found intact and end in one hash hold entries that agree, unless
the hash inputs of two of them are different and have one digest, or that of one of them has the
digest of sixty-four zeros. -/
theorem agree_of_same_tip {h h' : Handle} {s s' : Site} {as bs : List Entry} (ha : h.Vouched s as)
    (hb : h'.Vouched s' bs)
    (ht : as.getLast?.map Entry.currentHash = bs.getLast?.map Entry.currentHash) :
    (as.length = bs.length ∧ ∀ p ∈ as.zip bs, Entry.Agree p.1 p.2) ∨
      (∃ a ∈ as, ∃ b ∈ bs, a.Collide b) ∨ ∃ e ∈ as ++ bs, e.HitsGenesis := by
  by_cases hn : ∃ a ∈ as, ∃ b ∈ bs, a.Collide b
  · exact .inr (.inl hn)
  by_cases hg : ∃ e ∈ as ++ bs, e.HitsGenesis
  · exact .inr (.inr hg)
  have htip : Chain.tip (.text genesisHash) as = Chain.tip (.text genesisHash) bs := by
    have he : ∀ o : Option Entry, Chain.expectedAfter o = (o.map Entry.currentHash).getD (.text genesisHash) := by
      intro o
      cases o with
      | none => rfl
      | some e => rfl
    rw [Chain.tip_genesis, Chain.tip_genesis, he, he, ht]
  exact .inl (Chain.agree_of_tip ha.linked hb.linked ha.named hb.named
    (fun a hma b hmb hc => hn ⟨a, hma, b, hmb, hc⟩)
    (fun e he hz => hg ⟨e, List.mem_append_left bs he, hz⟩)
    (fun e he hz => hg ⟨e, List.mem_append_right as he, hz⟩) htip)

/-- A list and a tuple, stored within one millisecond under different ids: both rows end in one hash. -/
theorem agree_of_same_tip_of_tuple :
    let t : Instant := ⟨63900000000000123, some 0, by decide⟩
    let u : Instant := ⟨63900000000000456, some 0, by decide⟩
    let input := genesisHash ++ lit "|" ++ lit "login" ++ lit "|" ++ Stamp.ofUtcWall t.wall ++ lit "|" ++ lit "[null]"
    let hash : Value := .text (Sha256.hexDigest (Utf8.encode input))
    let a : Entry := ⟨.text (lit "1"), .text (lit "login"), .null, .null, .list [.null], .text genesisHash, hash, t⟩
    let b : Entry := ⟨.text (lit "2"), .text (lit "login"), .null, .null, .tuple [.null], .text genesisHash, hash, u⟩
    let row (e : Entry) : Site := { (default : Site) with memory := ⟨[e], [], 1, default⟩ }
    memory.Vouched (row a) [a] ∧ memory.Vouched (row b) [b] ∧
      (([a].length = [b].length ∧ ∀ p ∈ [a].zip [b], Entry.Agree p.1 p.2) ∨
        (∃ e ∈ [a], ∃ f ∈ [b], e.Collide f) ∨ ∃ e ∈ [a] ++ [b], e.HitsGenesis) := by
  intro t u input hash a b row
  have hw : input.isWellFormed = true := by decide +kernel
  have hs : Stamp.ofUtcWall t.wall = Stamp.ofUtcWall u.wall := by decide +kernel
  have hut : t.toUtc = .ok t := Instant.ofWall_eq_ok_iff.mpr ⟨rfl, rfl⟩
  have huu : u.toUtc = .ok u := Instant.ofWall_eq_ok_iff.mpr ⟨rfl, rfl⟩
  have hseal : ∀ e : Entry, e.hashInput = .ok input → e.currentHash = hash → e.IsSealed := by
    intro e hi hc
    refine ⟨_, ?_, hc⟩
    rw [Entry.hashInput] at hi
    rw [Entry.recomputed, Link.hash, hi]
    simp only [bind, Except.bind, Link.hashText, Utf8.encode?, hw, if_true]
  have hvouch : ∀ e : Entry, e.hashInput = .ok input → e.currentHash = hash →
      e.previousHash = .text genesisHash → e.eventType.isText = true → e.createdAt.toUtc = .ok e.createdAt →
      memory.Vouched (row e) [e] := by
    intro e hi hc hp ht hu
    have hl : Chain.Linked (.text genesisHash) [e] := ⟨hp, hseal e hi hc, trivial⟩
    have ha : ∀ f ∈ [e], f.createdAt.isAware = true := fun f hf => (Chain.isSealed_of_mem hl hf).isAware
    have hh : memory.Holds (row e) [e] := ⟨rfl, Ordered.sort_of_isSorted ha (List.pairwise_singleton _ e)⟩
    have he : e.createdAt.isAware = true := ha e (List.mem_singleton.mpr rfl)
    refine ⟨hh, ha, fun f hf => List.mem_singleton.mp hf ▸ ht, none, e.createdAt, e.createdAt, default, _, ?_,
      Verifier.verify_of_linked (lists_of_holds hh) hl he he (Int.le_refl _) hu hu default, rfl⟩
    intro f hf
    rw [List.mem_singleton.mp hf]
    exact ⟨Int.le_refl _, Int.le_refl _⟩
  have ha : a.hashInput = .ok input :=
    Link.hashInput_of_ok genesisHash (lit "login") (rfl : Canonical.encode a.details = .ok (lit "[null]"))
      (Stamp.write_of_toUtc rfl hut)
  have hb : b.hashInput = .ok input := by
    have h := Link.hashInput_of_ok genesisHash (lit "login")
      (rfl : Canonical.encode b.details = .ok (lit "[null]")) (Stamp.write_of_toUtc rfl huu)
    rw [← hs] at h
    exact h
  have va := hvouch a ha rfl rfl rfl hut
  have vb := hvouch b hb rfl rfl rfl huu
  exact ⟨va, vb, agree_of_same_tip va vb rfl⟩

end Handle

end AuditTrail
