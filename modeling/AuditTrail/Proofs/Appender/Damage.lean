import AuditTrail.Proofs.Appender.MemoryChain
import AuditTrail.Proofs.Canonical.Copying
import AuditTrail.Proofs.Chain.FirstBreak

/-!
# Damage to stored rows

One row of a chain in memory is edited or removed behind the audit trail's back. Each such damage leaves rows in the
order of their instants of which one, the damaged row or the one that followed the removed row, has a mismatch behind
linked rows (`Damages.exists_mismatch`). A verification of any range that has this row names it
(`Session.damage_is_located`).
-/

namespace AuditTrail

namespace Memory

/-- Every row in memory has a text as its id. -/
def HasTextIds (m : Memory) : Prop := ∀ e ∈ m.entries, ∃ t, e.id = .text t

private theorem preserves_hasTextIds : store.Preserves HasTextIds where
  findLast m h := by
    have hr := reading_entries (fun es => .ok es.getLast?) m
    rw [HasTextIds]
    exact hr ▸ h
  create d m h := by
    cases hc : (create d m).1 with
    | error f =>
      have hr := create_error hc
      rw [HasTextIds]
      exact hr ▸ h
    | ok e =>
      obtain ⟨he, hr⟩ := create_ok hc
      intro f hf
      rw [show (store.create d m).2.entries = m.entries ++ [e] from hr] at hf
      rcases List.mem_append.mp hf with hm | hm
      · exact h f hm
      · rw [List.mem_singleton.mp hm, he]
        exact ⟨_, rfl⟩

private theorem hasTextIds_empty (ids : IdSource) : (empty ids).HasTextIds := fun _ he => absurd he List.not_mem_nil

private theorem hasTextIds_strike (faults : List Fault) {m : Memory} (h : m.HasTextIds) :
    (m.strike faults).HasTextIds := h

variable {m : Memory} {front rest : List Entry} {e e' : Entry} {t : Text}

private theorem editFirst_row {edit : Entry → Except Fault Entry} (hid : e.id = .text t)
    (hnew : ∀ f ∈ front, f.id ≠ e.id)
    (he : edit e = .ok e') : editFirst e.id edit (front ++ e :: rest) = .ok (e', front ++ e' :: rest) := by
  induction front with
  | nil =>
    have hsame : e.id.same e.id = true := by rw [hid, Value.same_text_iff]
    rw [List.nil_append, editFirst, if_pos hsame, he]
    rfl
  | cons f front ih =>
    have hother : ¬f.id.same e.id = true := by
      rw [hid, Value.same_text_iff, ← hid]
      exact hnew f List.mem_cons_self
    rw [List.cons_append, editFirst, if_neg hother, ih fun g hg => hnew g (List.mem_cons_of_mem f hg)]
    rfl

private theorem tamper_row (hm : m.entries = front ++ e :: rest) (hid : e.id = .text t)
    (hnew : ∀ f ∈ front, f.id ≠ e.id)
    {edit : Edit} (hr : edit.isReserved = false) (ha : edit.apply e = .ok e') (hc : e'.details.isCopyable = true) :
    tamper e.id [edit] m = (.ok e', { m with entries := front ++ e' :: rest }) := by
  have he : (Edit.applyAll [edit] e).bind detached = .ok e' := by
    rw [Edit.applyAll, List.foldlM_cons, ha]
    simp only [List.foldlM_nil, bind, Except.bind, pure, Except.pure, detached, hc, if_true]
  rw [tamper, List.any_cons, List.any_nil, hr, hm, editFirst_row hid hnew he]
  rfl

private theorem delete_row (hm : m.entries = front ++ e :: rest) (hid : e.id = .text t)
    (hnew : ∀ f ∈ front ++ rest, f.id ≠ e.id) : (delete e.id m).entries = front ++ rest := by
  have hkeep : ∀ f ∈ front ++ rest, (!f.id.same e.id) = true := by
    intro f hf
    rw [Bool.not_eq_true', Bool.eq_false_iff, hid, ne_eq, Value.same_text_iff, ← hid]
    exact hnew f hf
  have hsame : e.id.same e.id = true := by rw [hid, Value.same_text_iff]
  rw [List.forall_mem_append] at hkeep
  rw [delete]
  simp only [hm, List.filter_append, List.filter_cons, hsame, Bool.not_true, Bool.false_eq_true, if_false,
    List.filter_eq_self.mpr hkeep.1, List.filter_eq_self.mpr hkeep.2]

end Memory

/-- A damage to one of the rows in memory, as it is done by the id of the row: what rows it leaves, which of them
does not fit the rows before it, and what should be there and is there instead. The row's new content has a hash of
its own, other than the one before; the row behind a removed one does not happen to fit the row before that. -/
inductive Damages (front : List Entry) (e : Entry) (rest : List Entry) :
    (Memory → Memory) → List Entry → Entry → Value → Value → Prop
  | details (v : Value) {hash : Text} (hr : Entry.recomputed { e with details := v } = .ok hash)
    (hne : e.recomputed ≠ .ok hash) :
    Damages front e rest (fun m => (Memory.tamper e.id [.details v] m).2) (front ++ { e with details := v } :: rest)
      { e with details := v } (.text hash) e.currentHash
  | eventType (v : Value) {hash : Text} (hr : Entry.recomputed { e with eventType := v } = .ok hash)
    (hne : e.recomputed ≠ .ok hash) :
    Damages front e rest (fun m => (Memory.tamper e.id [.eventType v] m).2)
      (front ++ { e with eventType := v } :: rest) { e with eventType := v } (.text hash) e.currentHash
  | currentHash (v : Value) {hash : Text} (hr : e.recomputed = .ok hash) (hne : v ≠ e.currentHash) :
    Damages front e rest (fun m => (Memory.tamper e.id [.currentHash v] m).2)
      (front ++ { e with currentHash := v } :: rest) { e with currentHash := v } (.text hash) v
  | previousHash (v : Value) (hne : v ≠ e.previousHash) :
    Damages front e rest (fun m => (Memory.tamper e.id [.previousHash v] m).2)
      (front ++ { e with previousHash := v } :: rest) { e with previousHash := v }
      (Chain.expectedAfter front.getLast?) v
  | removal {b : Entry} {more : List Entry} (hb : rest = b :: more)
    (hne : e.currentHash ≠ Chain.expectedAfter front.getLast?) :
    Damages front e rest (Memory.delete e.id) (front ++ b :: more) b (Chain.expectedAfter front.getLast?)
      b.previousHash

namespace Damages

variable {front rest rows : List Entry} {e b : Entry} {change : Memory → Memory} {wanted found : Value}

/-- The first row of a damaged chain that does not fit follows the linked rows in front of the damage. -/
theorem exists_mismatch (h : Damages front e rest change rows b wanted found)
    (hl : Chain.Linked (.text genesisHash) (front ++ e :: rest)) :
    ∃ more, rows = front ++ b :: more ∧
      (rows.map Entry.createdAt).Sublist ((front ++ e :: rest).map Entry.createdAt) ∧
      Chain.Mismatch (Chain.tip (.text genesisHash) front) b wanted found ∧
      ∃ body, Canonical.encode b.details = .ok body := by
  obtain ⟨-, hp, hs, hnext⟩ := (Chain.linked_append _ _ _).mp hl
  obtain ⟨old, ho, hc⟩ := hs
  have hedited : ∀ e' : Entry, e'.createdAt = e.createdAt →
      ((front ++ e' :: rest).map Entry.createdAt).Sublist ((front ++ e :: rest).map Entry.createdAt) := by
    intro e' he
    rw [List.map_append, List.map_cons, he, List.map_append, List.map_cons]
  have hbody : ∃ body, Canonical.encode e.details = .ok body := Entry.exists_body_of_recomputed ho
  have hbefore := Chain.tip_genesis front
  cases h with
  | details v hr hne =>
    refine ⟨rest, rfl, hedited _ rfl, .content hp hr ?_, Entry.exists_body_of_recomputed hr⟩
    intro he
    exact hne (ho.trans (congrArg Except.ok (Value.text.inj (hc.symm.trans he))))
  | eventType v hr hne =>
    refine ⟨rest, rfl, hedited _ rfl, .content hp hr ?_, Entry.exists_body_of_recomputed hr⟩
    intro he
    exact hne (ho.trans (congrArg Except.ok (Value.text.inj (hc.symm.trans he))))
  | currentHash v hr hne =>
    refine ⟨rest, rfl, hedited _ rfl, .content hp hr ?_, hbody⟩
    intro he
    obtain rfl := Except.ok.inj (ho.symm.trans hr)
    exact hne (he.trans hc.symm)
  | previousHash v hne =>
    rw [← hbefore]
    exact ⟨rest, rfl, hedited _ rfl, .link (hp ▸ hne), hbody⟩
  | removal hb hne =>
    subst hb
    obtain ⟨hq, hsealed, -⟩ := hnext
    rw [← hbefore] at hne ⊢
    refine ⟨_, rfl, ?_, .link (hq ▸ hne), hsealed.exists_body⟩
    exact ((List.sublist_cons_self e _).append_left front).map Entry.createdAt

private theorem entries_change (h : Damages front e rest change rows b wanted found) (hs : e.IsSealed) {m : Memory}
    (hm : m.entries = front ++ e :: rest) {t : Text} (hid : e.id = .text t) (hnew : ∀ f ∈ front ++ rest, f.id ≠ e.id) :
    (change m).entries = rows ∧ (change m).failures = m.failures := by
  have hedit : ∀ {edit : Edit} {e' : Entry}, edit.isReserved = false → edit.apply e = .ok e' →
      (∃ body, Canonical.encode e'.details = .ok body) →
      (Memory.tamper e.id [edit] m).2.entries = front ++ e' :: rest ∧
        (Memory.tamper e.id [edit] m).2.failures = m.failures := by
    intro edit e' hr ha ⟨body, hb⟩
    have hfront : ∀ f ∈ front, f.id ≠ e.id := fun f hf => hnew f (List.mem_append_left rest hf)
    rw [Memory.tamper_row hm hid hfront hr ha (Canonical.isCopyable_of_encode _ body hb)]
    exact ⟨rfl, rfl⟩
  cases h with
  | details v hr hne => exact hedit rfl rfl (Entry.exists_body_of_recomputed hr)
  | eventType v hr hne => exact hedit rfl rfl hs.exists_body
  | currentHash v hr hne => exact hedit rfl rfl hs.exists_body
  | previousHash v hne => exact hedit rfl rfl hs.exists_body
  | removal hb hne =>
    rw [Memory.delete_row hm hid hnew, hb]
    exact ⟨rfl, rfl⟩

end Damages

namespace Session

/-- A damage to one row that appenders wrote in memory is located by a verification of any range that has the row
which does not fit: the report names this row, counts the rows of the range up to it, and tells what should be there
and what is. This is so for whatever leaves the damaged rows, and for damage done by the id of the row if no other row
has this id. -/
theorem damage_is_located (ids : IdSource) (clock : Clock) (watch : Watch) (moves : List (Move (List Fault)))
    {front rest : List Entry} {e : Entry}
    (hrows : (inMemory ids clock watch moves).scene.world.entries = front ++ e :: rest)
    {change : Memory → Memory} {rows : List Entry} {b : Entry} {wanted found : Value}
    (hd : Damages front e rest change rows b wanted found) {start finish : Instant} (hs : start.isAware = true)
    (hf : finish.isAware = true) (hstart : start.moment ≤ b.createdAt.moment)
    (hfinish : b.createdAt.moment ≤ finish.moment) {limit : Option Int}
    (hfit : ∀ most ∈ limit, finish.moment - start.moment ≤ most) (w : Watch) :
    ∃ before after stamp, Ordered.inRange start finish rows = before ++ b :: after ∧
      Stamp.write b.createdAt = .ok stamp ∧
      let report : Report := ⟨.bool false, .int (before.length + 1 : Nat), b.id, .text stamp, wanted, found⟩
      (∀ m : Memory, m.failures = [] → m.entries = rows →
        (Verifier.verify Memory.store limit start finish m w).1 = .ok report) ∧
      ((∀ f ∈ front ++ rest, f.id ≠ e.id) →
        let m := change ((inMemory ids clock watch moves).scene.world.strike [])
        m.entries = rows ∧ (Verifier.verify Memory.store limit start finish m w).1 = .ok report) := by
  have hc : Appender.Continues (inMemory ids clock watch moves).appender (front ++ e :: rest) := by
    rw [← hrows]
    exact (extends_run moves (extends_fresh ids clock watch)).1
  obtain ⟨more, hmore, hsub, hm, hbody⟩ := hd.exists_mismatch hc.linked
  -- the instants that are left are instants of sealed rows, in order
  have hat : ∀ f ∈ rows, f.createdAt.isAware = true ∧ ∃ stamp, Stamp.write f.createdAt = .ok stamp := by
    intro f hm
    obtain ⟨g, hg, he⟩ := List.mem_map.mp (hsub.subset (List.mem_map_of_mem hm))
    have hsealed := Chain.isSealed_of_mem hc.linked hg
    rw [← he]
    exact ⟨hsealed.isAware, hsealed.exists_stamp⟩
  have hinstants : ((front ++ e :: rest).map Entry.createdAt).Pairwise fun s t => s.moment ≤ t.moment :=
    List.pairwise_map.mpr hc.increasing.isSorted
  have hsorted := List.pairwise_map.mp (hinstants.sublist hsub)
  obtain ⟨stamp, hstamp⟩ := (hat b (hmore ▸ List.mem_append_right front List.mem_cons_self)).2
  have hin : Ordered.inRange start finish rows =
      Ordered.inRange start finish front ++ b :: Ordered.inRange start finish more := by
    rw [hmore, Ordered.inRange, List.filter_append, List.filter_cons]
    simp only [hstart, hfinish, decide_true, Bool.and_self, if_true]
    rfl
  have hverify : ∀ m : Memory, m.failures = [] → m.entries = rows →
      (Verifier.verify Memory.store limit start finish m w).1 = .ok ⟨.bool false,
        .int ((Ordered.inRange start finish front).length + 1 : Nat), b.id, .text stamp, wanted, found⟩ := by
    intro m hq hr
    have hlists : Memory.store.Lists m (front ++ b :: more) :=
      Memory.lists hq (by rw [hr, ← hmore]; exact Ordered.sort_of_isSorted (fun f hf => (hat f hf).1) hsorted)
    exact Verifier.verify_of_break hlists (hmore ▸ fun f hf => (hat f hf).1)
      ((Chain.linked_append _ _ _).mp hc.linked).1 hm hbody hstamp hs hf hstart hfinish hfit w
  refine ⟨_, _, stamp, hin, hstamp, hverify, fun hnew => ?_⟩
  have hids : Memory.HasTextIds (inMemory ids clock watch moves).scene.world :=
    world_run Memory.preserves_hasTextIds (fun faults _ h => Memory.hasTextIds_strike faults h) moves
      (Memory.hasTextIds_empty ids)
  have he : e ∈ front ++ e :: rest := List.mem_append_right front List.mem_cons_self
  obtain ⟨t, ht⟩ := hids e (hrows ▸ he)
  obtain ⟨hentries, hcalm⟩ := hd.entries_change (m := (inMemory ids clock watch moves).scene.world.strike [])
    (Chain.isSealed_of_mem hc.linked he) hrows ht hnew
  exact ⟨hentries, hverify _ hcalm hentries⟩

/-- The link of the second of two rows is rewritten, and a range has the second row only: the report still tells the
hash of the row in front of the range. -/
theorem damage_is_located_behind_start :
    let t : Instant := ⟨63900000000000000, some 0, by decide⟩
    let u : Instant := ⟨63900000000001000, some 0, by decide⟩
    let r : Request := ⟨.text (lit "login|ok"), .text (lit "auth"), .map [(.text (lit "n"), .int 1)], .null⟩
    let m := (inMemory (.ofNumbers []) (.scripted (.ok t) []) default [.submit r, .work 2, .submit r, .work 2]).scene.world
    let x : Value := .text (lit "x")
    ∃ a b stamp, m.entries = [a, b] ∧
      (Verifier.verify Memory.store (some 0) u u (Memory.tamper b.id [.previousHash x] (m.strike [])).2 default).1 =
        .ok ⟨.bool false, .int 1, b.id, .text stamp, a.currentHash, x⟩ := by
  intro t u r m x
  have hd : m.entries.length = 2 ∧ m.entries.map (·.createdAt.moment) = [t.moment, u.moment] ∧
      m.entries.map (fun e => e.id.same (.text (Text.hex 32 1))) = [true, false] := by
    decide +kernel
  obtain ⟨hlen, hat, hids⟩ := hd
  obtain ⟨a, b, hm⟩ := List.length_eq_two.mp hlen
  rw [hm] at hat hids
  simp only [List.map_cons, List.map_nil, List.cons.injEq, and_true] at hat hids
  have hne : a.id ≠ b.id := fun he => absurd (he ▸ hids.1) (by simp [hids.2])
  have hl : Chain.Linked (.text genesisHash) [a, b] := hm ▸ (extends_run _ (extends_fresh _ _ _)).1.linked
  obtain ⟨-, ha, hp, -⟩ := hl
  have hlink : x ≠ b.previousHash := by
    obtain ⟨input, -, -, hc⟩ := ha.exists_hashInput
    intro he
    have hlength := congrArg List.length (Value.text.inj (he.trans (hp.trans hc)))
    rw [Sha256.length_hexDigest] at hlength
    exact absurd hlength (by decide)
  have hfit : ∀ most ∈ some (0 : Int), u.moment - u.moment ≤ most := by
    intro most hmost
    rw [← Option.some.inj hmost]
    omega
  have hrows : m.entries = [a] ++ b :: [] := hm
  obtain ⟨before, after, stamp, hin, -, -, htamper⟩ := damage_is_located (.ofNumbers []) (.scripted (.ok t) []) default
    [.submit r, .work 2, .submit r, .work 2] hrows (.previousHash x hlink) rfl rfl (Int.le_of_eq hat.2.symm)
    (Int.le_of_eq hat.2) hfit default
  have hrange : Ordered.inRange u u [a, { b with previousHash := x }] = [{ b with previousHash := x }] := by
    have hout : ¬u.moment ≤ a.createdAt.moment := by
      rw [hat.1]
      decide
    simp [Ordered.inRange, hout, hat.2]
  have hbefore : before = [] := by
    have hlength := congrArg List.length (hin.symm.trans hrange)
    rw [List.length_append, List.length_cons, List.length_singleton] at hlength
    exact List.eq_nil_of_length_eq_zero (by omega)
  have hother : ∀ f ∈ [a] ++ [], f.id ≠ b.id := by
    simpa using hne
  have hv := (htamper hother).2
  rw [hbefore] at hv
  exact ⟨a, b, stamp, hm, hv⟩

end Session

end AuditTrail
