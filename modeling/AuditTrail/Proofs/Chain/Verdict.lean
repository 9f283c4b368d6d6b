import AuditTrail.Proofs.Chain.HashInput
import AuditTrail.Proofs.Chain.Verification

/-!
# The verdict of a verification

A verification of entries that can be checked always comes to a verdict. It finds a range intact exactly
when the range is linked behind the entry before it, and otherwise names the first entry that breaks the
chain, with what was expected there and what was found instead (`Handle.verify_decides`).
-/

namespace AuditTrail

namespace Entry

/-- An entry at an instant that has a stamp, with texts as hashes, whose own hash can be computed unless its
details have no canonical text. -/
structure IsCheckable (e : Entry) : Prop where
  aware : e.createdAt.isAware = true
  utc : ∃ u, e.createdAt.toUtc = .ok u
  previousHash : e.previousHash.isText = true
  currentHash : e.currentHash.isText = true
  recomputed : (∃ hash, e.recomputed = .ok hash) ∨ ∃ why, e.recomputed = .error (.encoding why)

private theorem IsCheckable.exists_stamp {e : Entry} (h : e.IsCheckable) :
    ∃ stamp, Stamp.write e.createdAt = .ok stamp := by
  obtain ⟨u, hu⟩ := h.utc
  exact ⟨_, Stamp.write_of_toUtc h.aware hu⟩

theorem encode_of_recomputed {e : Entry} {why : Unencodable} (h : e.recomputed = .error (.encoding why)) :
    Canonical.encode e.details = .error (.encoding why) := by
  have hshown : ∀ {v : Value} {f : Fault}, Link.shown v = .error f → f = .oversized := by
    intro v f hf
    rw [Link.shown] at hf
    split at hf
    · exact absurd hf (by simp)
    · exact (Except.error.inj hf).symm
  have hstamp : Stamp.write e.createdAt ≠ .error (.encoding why) := by
    rw [Stamp.write, Instant.toUtc, Instant.ofWall]
    split
    · split <;> simp [Except.map, Fault.outOfRange]
    · simp [Stamp.unaware]
  rw [recomputed, Link.hash, Link.hashInput] at h
  cases hd : Canonical.encode e.details with
  | error f => simpa [hd, bind, Except.bind] using h
  | ok body =>
    exfalso
    cases hp : Link.shown e.previousHash with
    | error f => simp [hd, hp, bind, Except.bind, hshown hp, Fault.oversized] at h
    | ok previous =>
      cases ht : Link.shown e.eventType with
      | error f => simp [hd, hp, ht, bind, Except.bind, hshown ht, Fault.oversized] at h
      | ok event =>
        cases hs : Stamp.write e.createdAt with
        | error f =>
          simp only [hd, hp, ht, hs, bind, Except.bind, Except.error.injEq] at h
          exact hstamp (h ▸ hs)
        | ok stamp =>
          simp only [hd, hp, ht, hs, bind, Except.bind, pure, Except.pure, Link.hashText] at h
          split at h <;> simp at h

end Entry

namespace Chain

/-- What should be in an entry that breaks the chain behind an expected hash, and what is there instead. The
link is looked at first, then the details, and the hash last. -/
inductive Mismatch (expected : Value) (e : Entry) : Value → Value → Prop
  | link (h : e.previousHash ≠ expected) : Mismatch expected e expected e.previousHash
  | details {f : Fault} (hl : e.previousHash = expected) (hd : Canonical.encode e.details = .error f) :
    Mismatch expected e .null e.currentHash
  | content {hash : Text} (hl : e.previousHash = expected) (hr : e.recomputed = .ok hash)
    (hc : e.currentHash ≠ .text hash) : Mismatch expected e (.text hash) e.currentHash

private theorem Mismatch.breaks {expected wanted found : Value} {e : Entry} (h : Mismatch expected e wanted found) :
    ¬(e.previousHash = expected ∧ e.IsSealed) := by
  rintro ⟨hp, hash, hr, hc⟩
  cases h with
  | link hl => exact hl hp
  | details _ hd =>
    rw [Entry.recomputed, Link.hash, Link.hashInput, hd] at hr
    simp [bind, Except.bind] at hr
  | content _ hr' hc' =>
    rw [hr', Except.ok.injEq] at hr
    exact hc' (hr ▸ hc)

/-- A report names the first entry of a list that breaks the chain: the entries in front of it are linked. -/
def NamesBreak (position : Nat) (expected : Value) (es : List Entry) (r : Report) : Prop :=
  ∃ front e rest stamp wanted found, es = front ++ e :: rest ∧ Linked expected front ∧
    Mismatch (tip expected front) e wanted found ∧ Stamp.write e.createdAt = .ok stamp ∧
    r = ⟨.bool false, .int (position + front.length : Nat), e.id, .text stamp, wanted, found⟩

private theorem NamesBreak.not_linked {position : Nat} {expected : Value} {es : List Entry} {r : Report}
    (h : NamesBreak position expected es r) : ¬Linked expected es := by
  obtain ⟨front, e, rest, _, _, _, rfl, -, hm, -, -⟩ := h
  rw [linked_append]
  rintro ⟨-, hp, hs, -⟩
  exact hm.breaks ⟨hp, hs⟩

theorem NamesBreak.isIntact {position : Nat} {expected : Value} {es : List Entry} {r : Report}
    (h : NamesBreak position expected es r) : r.isIntact = false := by
  obtain ⟨_, _, _, _, _, _, -, -, -, -, rfl⟩ := h
  rfl

theorem NamesBreak.cons {position : Nat} {expected : Value} {e : Entry} {es : List Entry} {r : Report}
    (hp : e.previousHash = expected) (hs : e.IsSealed) (h : NamesBreak (position + 1) e.currentHash es r) :
    NamesBreak position expected (e :: es) r := by
  obtain ⟨front, b, rest, stamp, wanted, found, rfl, hl, hm, ht, rfl⟩ := h
  refine ⟨e :: front, b, rest, stamp, wanted, found, rfl, ⟨hp, hs, hl⟩, hm, ht, ?_⟩
  rw [List.length_cons, Nat.add_right_comm, Nat.add_assoc]

private theorem namesBreak_broken {position : Nat} {expected wanted found : Value} {e : Entry} (es : List Entry)
    (h : e.IsCheckable) (hm : Mismatch expected e wanted found) :
    ∃ r, broken position e wanted found = .ok r ∧ NamesBreak position expected (e :: es) r := by
  obtain ⟨stamp, hs⟩ := h.exists_stamp
  refine ⟨⟨.bool false, .int position, e.id, .text stamp, wanted, found⟩, ?_, ?_⟩
  · rw [broken, hs]
    rfl
  · exact ⟨[], e, es, stamp, wanted, found, rfl, trivial, hm, hs, rfl⟩

/-- A walk over entries that can be checked comes to a verdict. -/
private theorem walk_decides {es : List Entry} (hc : ∀ e ∈ es, e.IsCheckable) (t : Text) (position : Nat) :
    ∃ r, walk (position + 1) (.text t) es = .ok r ∧
      ((Linked (.text t) es ∧ r = .intact (position + es.length)) ∨ NamesBreak (position + 1) (.text t) es r) := by
  induction es generalizing t position with
  | nil => exact ⟨_, rfl, .inl ⟨trivial, rfl⟩⟩
  | cons e rest ih =>
    have he := hc e List.mem_cons_self
    obtain ⟨s, hs⟩ := Value.exists_of_isText he.currentHash
    rw [walk]
    by_cases hp : e.previousHash = .text t
    · have hf : follows (.text t) e = true := by rw [follows, hp, Value.same_text_iff]
      simp only [hf, Bool.not_true, Bool.false_eq_true, if_false]
      rcases he.recomputed with ⟨hash, hr⟩ | ⟨why, hr⟩
      · simp only [hr]
        by_cases hm : e.currentHash = .text hash
        · have hsame : (Value.text hash).same e.currentHash = true := Value.text_same_iff.mpr hm
          obtain ⟨r, hw, hv⟩ := ih (fun f hf => hc f (List.mem_cons_of_mem e hf)) s (position + 1)
          rw [if_pos hsame, hs]
          refine ⟨r, hw, hv.imp ?_ ?_⟩
          · rintro ⟨hl, rfl⟩
            refine ⟨⟨hp, ⟨hash, hr, hm⟩, hs ▸ hl⟩, ?_⟩
            rw [List.length_cons, Nat.add_right_comm, Nat.add_assoc]
          · intro hb
            exact NamesBreak.cons hp ⟨hash, hr, hm⟩ (hs ▸ hb)
        · have hsame : ¬(Value.text hash).same e.currentHash = true := fun h => hm (Value.text_same_iff.mp h)
          rw [if_neg hsame]
          obtain ⟨r, hb, hn⟩ := namesBreak_broken rest he (.content hp hr hm)
          exact ⟨r, hb, .inr hn⟩
      · simp only [hr]
        obtain ⟨r, hb, hn⟩ := namesBreak_broken rest he (.details hp (Entry.encode_of_recomputed hr))
        exact ⟨r, hb, .inr hn⟩
    · have hf : follows (.text t) e = false := by
        rw [follows, Bool.eq_false_iff]
        exact fun h => hp (Value.same_text_iff.mp h)
      simp only [hf, Bool.not_false, if_true]
      obtain ⟨r, hb, hn⟩ := namesBreak_broken rest he (.link hp)
      exact ⟨r, hb, .inr hn⟩

/-- The hash that a range of entries must follow: that of the latest of all entries strictly before the first one
of the range, or the genesis hash. -/
def anchor (es : List Entry) : List Entry → Value
  | [] => .text genesisHash
  | e :: _ => expectedAfter (Ordered.earlier e.createdAt es).getLast?

private theorem exists_anchor_eq_text {es : List Entry} (h : ∀ e ∈ es, e.currentHash.isText = true)
    (range : List Entry) :
    ∃ t, anchor es range = .text t := by
  cases range with
  | nil => exact ⟨genesisHash, rfl⟩
  | cons e rest =>
    rw [anchor]
    cases hl : (Ordered.earlier e.createdAt es).getLast? with
    | none => exact ⟨genesisHash, rfl⟩
    | some l => exact Value.exists_of_isText (h l (List.mem_filter.mp (List.mem_of_getLast? hl)).1)

end Chain

namespace Verifier

variable {W : Type} {store : Store W} {w : W} {es : List Entry} {start finish : Instant}

theorem checkRange_of_fits {limit : Option Int} (hs : start.isAware = true) (hf : finish.isAware = true)
    (hle : start.moment ≤ finish.moment) (hfit : ∀ most ∈ limit, finish.moment - start.moment ≤ most) :
    checkRange limit start finish = .ok () := by
  have hn : ¬finish.moment < start.moment := by omega
  cases limit with
  | none => exact checkRange_of_le hs hf hle
  | some most =>
    have hm : ¬most < finish.moment - start.moment := by
      have := hfit most rfl
      omega
    simp [checkRange, hs, hf, hn, hm]

private theorem examine_eq_walk (h : store.Lists w es) (ha : ∀ e ∈ es, e.createdAt.isAware = true)
    (hs : start.isAware = true) (hf : finish.isAware = true) {e : Entry} {rest : List Entry}
    (hr : Ordered.inRange start finish es = e :: rest) :
    examine store start finish w = ((Chain.walk 1 (Chain.anchor es (e :: rest)) (e :: rest)).map some, w) := by
  rw [examine_of_lists h ha hs hf, hr, Chain.anchor, Ordered.earlier_of_inRange h.sorted hr]

theorem conclude_fst {r : Report} {a b : Text} (ha : Stamp.write start = .ok a) (hb : Stamp.write finish = .ok b)
    (watch : Watch) : (conclude start finish r watch).1 = .ok r := by
  rw [conclude]
  split
  · rw [ha, hb]
  · rfl

end Verifier

namespace Handle

/-- A verification of entries that can be checked comes to a verdict. It finds a range intact, and counts its
entries, exactly when the range is linked behind its anchor; otherwise it names the first entry that is not. -/
theorem verify_decides {h : Handle} {s : Site} {es : List Entry} (hh : h.Holds s es) (hc : ∀ e ∈ es, e.IsCheckable)
    {start finish u v : Instant} (hs : start.isAware = true) (hf : finish.isAware = true)
    (hu : start.toUtc = .ok u) (hv : finish.toUtc = .ok v) (hle : start.moment ≤ finish.moment)
    {limit : Option Int} (hfit : ∀ most ∈ limit, finish.moment - start.moment ≤ most) (watch : Watch) :
    let range := Ordered.inRange start finish es
    let expected := Chain.anchor es range
    ∃ r, (Verifier.verify h.store limit start finish s watch).1 = .ok r ∧
      (r.isIntact = true ↔ Chain.Linked expected range) ∧
      (Chain.Linked expected range → r = .intact range.length) ∧
      (¬Chain.Linked expected range → Chain.NamesBreak 1 expected range r) := by
  intro range expected
  have ha : ∀ e ∈ es, e.createdAt.isAware = true := fun e he => (hc e he).aware
  obtain ⟨t, ht⟩ := Chain.exists_anchor_eq_text (fun e he => (hc e he).currentHash) range
  have hl := lists_of_holds hh
  rw [Verifier.verify, Verifier.checkRange_of_fits hs hf hle hfit]
  cases hr : range with
  | nil =>
    refine ⟨.intact 0, ?_, ⟨fun _ => trivial, fun _ => rfl⟩, fun _ => rfl, fun hn => absurd trivial hn⟩
    simp only [Verifier.examine_of_lists hl ha hs hf]
    rw [show Ordered.inRange start finish es = [] from hr]
  | cons e rest =>
    have hm : ∀ f ∈ e :: rest, f.IsCheckable := by
      intro f hf
      exact hc f (Ordered.mem_inRange.mp (show f ∈ range from hr ▸ hf)).1
    obtain ⟨r, hw, hd⟩ := Chain.walk_decides hm t 0
    have hx : Chain.anchor es (e :: rest) = .text t := hr ▸ ht
    have he : expected = .text t := ht
    simp only [Verifier.examine_eq_walk hl ha hs hf hr, hx, hw, Except.map, he]
    refine ⟨r, Verifier.conclude_fst (Stamp.write_of_toUtc hs hu) (Stamp.write_of_toUtc hf hv) _, ?_⟩
    rcases hd with ⟨hlinked, rfl⟩ | hbreak
    · rw [Nat.zero_add]
      exact ⟨⟨fun _ => hlinked, fun _ => rfl⟩, fun _ => rfl, fun hn => absurd hlinked hn⟩
    · have hi := hbreak.isIntact
      have hn := hbreak.not_linked
      exact ⟨⟨fun h => absurd h (by simp [hi]), fun h => absurd h hn⟩, fun h => absurd h hn, fun _ => hbreak⟩

/-- A second row whose link was rewritten, and whose details have no canonical text either: the report names it,
with the hash of the first row as what was expected. -/
theorem verify_decides_of_rewritten_link :
    let t : Instant := ⟨63900000000000123, some 0, by decide⟩
    let input := genesisHash ++ lit "|" ++ lit "login" ++ lit "|" ++ Stamp.ofUtcWall t.wall ++ lit "|" ++ lit "[null]"
    let hash : Value := .text (Sha256.hexDigest (Utf8.encode input))
    let a : Entry := ⟨.text (lit "1"), .text (lit "login"), .null, .null, .list [.null], .text genesisHash, hash, t⟩
    let b : Entry := ⟨.text (lit "2"), .text (lit "login"), .null, .null, .bytes [], .text (lit "x"), hash, t⟩
    let s : Site := { (default : Site) with memory := ⟨[a, b], [], 2, default⟩ }
    (Verifier.verify memory.store (some 0) t t s default).1 =
      .ok ⟨.bool false, .int 2, b.id, .text (Stamp.ofUtcWall t.wall), hash, .text (lit "x")⟩ := by
  intro t input hash a b s
  have hw : input.isWellFormed = true := by decide +kernel
  have hu : t.toUtc = .ok t := Instant.ofWall_eq_ok_iff.mpr ⟨rfl, rfl⟩
  have hi : Link.hashInput a.previousHash a.eventType a.createdAt a.details = .ok input :=
    Link.hashInput_of_ok genesisHash (lit "login") (rfl : Canonical.encode a.details = .ok (lit "[null]"))
      (Stamp.write_of_toUtc rfl hu)
  have hr : a.recomputed = .ok (Sha256.hexDigest (Utf8.encode input)) := by
    rw [Entry.recomputed, Link.hash, hi]
    simp only [bind, Except.bind, Link.hashText, Utf8.encode?, hw, if_true]
  have hc : ∀ e ∈ [a, b], e.IsCheckable := by
    simp only [List.mem_cons, List.not_mem_nil, or_false, forall_eq_or_imp, forall_eq]
    exact ⟨⟨rfl, ⟨t, hu⟩, rfl, rfl, .inl ⟨_, hr⟩⟩, ⟨rfl, ⟨t, hu⟩, rfl, rfl, .inr ⟨_, rfl⟩⟩⟩
  have hs : Ordered.sort [a, b] = .ok [a, b] :=
    Ordered.sort_of_isSorted (fun e he => (hc e he).aware) (List.pairwise_pair.mpr (Int.le_refl _))
  have hh : memory.Holds s [a, b] := ⟨rfl, hs⟩
  have hne : Value.text (lit "x") ≠ hash := by
    intro he
    have hl := congrArg List.length (Value.text.inj he)
    rw [Sha256.length_hexDigest] at hl
    exact absurd hl (by decide)
  have hat : ∀ e ∈ [a, b], e.createdAt = t := by
    simp only [List.mem_cons, List.not_mem_nil, or_false, forall_eq_or_imp, forall_eq]
    exact ⟨rfl, rfl⟩
  have hrange : Ordered.inRange t t [a, b] = [a, b] :=
    List.filter_eq_self.mpr fun e he => by simp [hat e he]
  have hout : Ordered.earlier t [a, b] = [] :=
    List.filter_eq_nil_iff.mpr fun e he => by simp [hat e he]
  have hanchor : Chain.anchor [a, b] [a, b] = .text genesisHash := by
    rw [Chain.anchor, show Ordered.earlier a.createdAt [a, b] = [] from hout]
    rfl
  have hfit : ∀ most ∈ some (0 : Int), t.moment - t.moment ≤ most := by
    intro most hm
    rw [← Option.some.inj hm]
    omega
  obtain ⟨r, hv, -, -, hn⟩ := verify_decides hh hc rfl rfl hu hu (Int.le_refl _) hfit default
  rw [hrange, hanchor] at hn
  obtain ⟨front, e, rest, stamp, wanted, found, he, -, hm, hst, rfl⟩ := hn fun hl => hne hl.2.2.1
  -- The break is neither at the first entry, whose link and hash are right, nor behind the second.
  cases front with
  | nil =>
    obtain rfl : a = e := List.head_eq_of_cons_eq he
    exact absurd ⟨rfl, _, hr, rfl⟩ hm.breaks
  | cons f more =>
    obtain rfl : a = f := List.head_eq_of_cons_eq he
    cases more with
    | nil =>
      obtain rfl : b = e := List.head_eq_of_cons_eq (List.tail_eq_of_cons_eq he)
      rw [Stamp.write_of_toUtc rfl hu, Except.ok.injEq] at hst
      cases hm with
      | link => rw [hv, ← hst]; rfl
      | details hl => exact absurd hl hne
      | content hl => exact absurd hl hne
    | cons g more => exact absurd (congrArg List.length he) (by simp)

end Handle

end AuditTrail
