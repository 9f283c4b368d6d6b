import AuditTrail.Proofs.Appender.Session
import AuditTrail.Proofs.Canonical.Fixpoint
import AuditTrail.Proofs.Storage.RoundTrip

/-!
# Tickets

Every request in the queue has a ticket of its own that is not settled yet, and the request at the writer has a
running one (`Appender.Books`). Whatever an appender does keeps its books. No ticket is acknowledged but by the commit
of its request, and then with the stored entry (`books_storeAdmitted`).
-/

namespace AuditTrail

/-- A request with texts for its fields, of which the correlation id may be missing, and details in which no map
holds a key twice. -/
structure Request.IsPlain (r : Request) : Prop where
  eventType : r.eventType.isText = true
  source : r.source.isText = true
  correlationId : r.correlationId = .null ∨ r.correlationId.isText = true
  uniqueKeys : r.details.hasUniqueKeys = true

def Outcome.entry? : Outcome → Option Entry
  | .stored e => some e
  | _ => none

def Item.ticket? : Item → Option Nat
  | .request ticket _ => some ticket
  | .stop => none

theorem perm_filterMap_set {α β : Type} {f : α → Option β} {xs : List α} {n : Nat} {x : α} (hx : xs[n]? = some x)
    (hf : f x = none) (y : α) : ((xs.set n y).filterMap f).Perm ((f y).toList ++ xs.filterMap f) := by
  induction xs generalizing n with
  | nil => exact absurd hx (by simp)
  | cons z xs ih =>
    cases n with
    | zero =>
      obtain rfl : z = x := Option.some.inj hx
      rw [List.set_cons_zero, List.filterMap_cons_none hf, List.filterMap_cons]
      cases f y with
      | none => exact .refl _
      | some b => exact .refl _
    | succ n =>
      have hrest := ih (n := n) hx
      rw [List.set_cons_succ, List.filterMap_cons, List.filterMap_cons]
      cases f z with
      | none => exact hrest
      | some b => exact (hrest.cons b).trans List.perm_middle.symm

namespace Appender

variable {W : Type}

/-- The entries of the tickets that were acknowledged. -/
def acknowledged (a : Appender) : List Entry := a.outcomes.filterMap Outcome.entry?

def queued (a : Appender) : List Nat := a.queue.filterMap Item.ticket?

/-- Every waiting request has an unsettled ticket of its own, the request at the writer has a running one, and all
requests are plain. -/
structure Books (a : Appender) : Prop where
  distinct : a.queued.Nodup
  waiting : ∀ n ∈ a.queued, a.outcomes[n]? = some .pending ∨ a.outcomes[n]? = some .cancelled
  running : ∀ p, a.admitted = some p → a.outcomes[p.ticket]? = some .running
  plain : ∀ n r, .request n r ∈ a.queue → r.IsPlain
  plainAdmitted : ∀ p, a.admitted = some p → p.request.IsPlain

structure SameBooks (a b : Appender) : Prop where
  queue : a.queue = b.queue
  admitted : a.admitted = b.admitted
  outcomes : a.outcomes = b.outcomes

theorem SameBooks.acknowledged {a b : Appender} (h : SameBooks b a) : b.acknowledged = a.acknowledged :=
  congrArg (List.filterMap Outcome.entry?) h.outcomes

namespace Books

variable {a b : Appender}

theorem of_same (h : Books a) (hs : SameBooks b a) : Books b := by
  obtain ⟨hq, hp, ho⟩ := hs
  have hqueued : b.queued = a.queued := congrArg (List.filterMap Item.ticket?) hq
  refine ⟨?_, ?_, ?_, ?_, ?_⟩
  · rw [hqueued]
    exact h.distinct
  · rw [hqueued, ho]
    exact h.waiting
  · rw [hp, ho]
    exact h.running
  · rw [hq]
    exact h.plain
  · rw [hp]
    exact h.plainAdmitted

theorem fresh : Books .fresh where
  distinct := .nil
  waiting _ hn := absurd hn List.not_mem_nil
  running _ hp := absurd hp (by simp [Appender.fresh])
  plain _ _ hr := absurd hr List.not_mem_nil
  plainAdmitted _ hp := absurd hp (by simp [Appender.fresh])

theorem emptyHanded (h : Books a) : Books { a with admitted := none } :=
  ⟨h.distinct, h.waiting, fun _ hp => absurd hp (by simp), h.plain, fun _ hp => absurd hp (by simp)⟩

theorem stop (h : Books a) : Books { a with closed := true, queue := a.queue ++ [.stop] } := by
  have hq : (a.queue ++ [Item.stop]).filterMap Item.ticket? = a.queued := by
    rw [List.filterMap_append]
    exact List.append_nil _
  refine ⟨?_, ?_, h.running, ?_, h.plainAdmitted⟩
  · rw [queued, hq]
    exact h.distinct
  · rw [queued, hq]
    exact h.waiting
  · intro n r hr
    rcases List.mem_append.mp hr with hm | hm
    · exact h.plain n r hm
    · exact absurd (List.mem_singleton.mp hm) (by simp)

theorem settle (h : Books a) {n : Nat} (hn : n ∉ a.queued) (ha : ∀ p, a.admitted = some p → p.ticket ≠ n)
    (o : Outcome) : Books (a.settleTicket n o) where
  distinct := h.distinct
  waiting m hm := by
    have hne : n ≠ m := fun he => hn (he ▸ hm)
    rw [settleTicket, List.getElem?_set_ne hne]
    exact h.waiting m hm
  running p hp := by
    rw [settleTicket, List.getElem?_set_ne (ha p hp).symm]
    exact h.running p hp
  plain := h.plain
  plainAdmitted := h.plainAdmitted

private theorem not_queued (h : Books a) {n : Nat} (hn : a.outcomes[n]? = some .running) : n ∉ a.queued := by
  intro hm
  rcases h.waiting n hm with hw | hw
  · exact absurd (Option.some.inj (hn.symm.trans hw)) (by simp)
  · exact absurd (Option.some.inj (hn.symm.trans hw)) (by simp)

private theorem finish (h : Books a) {n : Nat} (hn : a.outcomes[n]? = some .running) (o : Outcome) :
    Books (({ a with admitted := none }).settleTicket n o) :=
  h.emptyHanded.settle (h.not_queued hn) (fun _ hp => absurd hp (by simp)) o

private theorem extend (h : Books a) (o : Outcome) : Books { a with outcomes := a.outcomes ++ [o] } := by
  have hadd : ∀ {n : Nat} {o' : Outcome}, a.outcomes[n]? = some o' → (a.outcomes ++ [o])[n]? = some o' :=
    fun ho => by rw [List.getElem?_append_left (List.getElem?_eq_some_iff.mp ho).1, ho]
  refine ⟨h.distinct, ?_, ?_, h.plain, h.plainAdmitted⟩
  · exact fun n hn => (h.waiting n hn).imp hadd hadd
  · exact fun p hp => hadd (h.running p hp)

private theorem enqueue (h : Books a) {n : Nat} (hn : n ∉ a.queued) (ho : a.outcomes[n]? = some .pending) {r : Request}
    (hr : r.IsPlain) : Books { a with queue := a.queue ++ [.request n r] } := by
  have hq : (a.queue ++ [Item.request n r]).filterMap Item.ticket? = a.queued ++ [n] := by
    rw [List.filterMap_append]
    rfl
  refine ⟨?_, ?_, h.running, ?_, h.plainAdmitted⟩
  · rw [queued, hq, List.nodup_append]
    refine ⟨h.distinct, List.nodup_singleton n, ?_⟩
    intro m hm k hk he
    rw [List.mem_singleton.mp hk] at he
    exact hn (he ▸ hm)
  · rw [queued, hq]
    intro m hm
    rcases List.mem_append.mp hm with hm | hm
    · exact h.waiting m hm
    · rw [List.mem_singleton.mp hm]
      exact .inl ho
  · intro m q hq
    rcases List.mem_append.mp hq with hm | hm
    · exact h.plain m q hm
    · obtain ⟨-, rfl⟩ := Item.request.inj (List.mem_singleton.mp hm)
      exact hr

private theorem next_not_queued (h : Books a) : a.outcomes.length ∉ a.queued := by
  intro hm
  rcases h.waiting _ hm with hw | hw
  · exact absurd (List.getElem?_eq_some_iff.mp hw).1 (Nat.lt_irrefl _)
  · exact absurd (List.getElem?_eq_some_iff.mp hw).1 (Nat.lt_irrefl _)

end Books

theorem perm_acknowledged_settleTicket {a : Appender} {n : Nat} {o : Outcome} (hn : a.outcomes[n]? = some o)
    (ho : o.entry? = none) (o' : Outcome) :
    (a.settleTicket n o').acknowledged.Perm (o'.entry?.toList ++ a.acknowledged) :=
  perm_filterMap_set hn ho o'

theorem books_submit {r : Request} (hr : r.IsPlain) {a : Appender} (s : Scene W) (h : Books a) :
    Books (submit r (a, s)).2.1 ∧ (submit r (a, s)).2.1.acknowledged = a.acknowledged ∧
      (submit r (a, s)).2.2.clock = s.clock := by
  have hkept : ∀ {o : Outcome}, o.entry? = none →
      (a.outcomes ++ [o]).filterMap Outcome.entry? = a.acknowledged := fun ho => by
    rw [List.filterMap_append, List.filterMap_cons_none ho]
    exact List.append_nil _
  rw [submit]
  split
  · split
    · exact ⟨h, rfl, rfl⟩
    · exact ⟨h.extend _, hkept rfl, rfl⟩
  · exact ⟨h, rfl, rfl⟩
  · rename_i details hd
    split
    · exact ⟨h, rfl, rfl⟩
    · obtain ⟨t, -, rfl⟩ := Fault.map_eq_ok_iff.mp hd
      have hplain : ({ r with details := Canonical.listed r.details } : Request).IsPlain :=
        ⟨hr.eventType, hr.source, hr.correlationId, (Value.hasUniqueKeys_listed r.details).trans hr.uniqueKeys⟩
      have hqueue := (h.extend .pending).enqueue h.next_not_queued List.getElem?_concat_length hplain
      exact ⟨hqueue.of_same ⟨rfl, rfl, rfl⟩, hkept rfl, rfl⟩

theorem books_cancel {a : Appender} (ticket : Nat) (h : Books a) :
    Books (a.cancel ticket).2 ∧ (a.cancel ticket).2.acknowledged.Perm a.acknowledged := by
  rw [cancel]
  split
  · rename_i hp
    refine ⟨⟨h.distinct, ?_, ?_, h.plain, h.plainAdmitted⟩, perm_acknowledged_settleTicket hp rfl .cancelled⟩
    · intro n hn
      by_cases he : ticket = n
      · subst he
        exact .inr (List.getElem?_set_self (List.getElem?_eq_some_iff.mp hp).1)
      · rw [settleTicket, List.getElem?_set_ne he]
        exact h.waiting n hn
    · intro p hq
      have hrun := h.running p hq
      have hne : ticket ≠ p.ticket := by
        rintro rfl
        exact absurd (Option.some.inj (hp.symm.trans hrun)) (by simp)
      rw [settleTicket, List.getElem?_set_ne hne]
      exact hrun
  · exact ⟨h, .refl _⟩
  · exact ⟨h, .refl _⟩

theorem books_failAdmitted (f : Fault) {p : Admitted} {a : Appender} (s : Scene W) (h : Books a)
    (hp : a.outcomes[p.ticket]? = some .running) :
    Books (failAdmitted f p a s).1 ∧ (failAdmitted f p a s).1.acknowledged.Perm a.acknowledged ∧
      (failAdmitted f p a s).2.clock = s.clock := by
  rw [failAdmitted]
  split
  · exact ⟨h.emptyHanded.of_same ⟨rfl, rfl, rfl⟩, .refl _, rfl⟩
  · exact ⟨h.finish hp _, perm_acknowledged_settleTicket (a := { a with admitted := none }) hp rfl _, rfl⟩

/-- A stored request keeps the books, and its entry is acknowledged. -/
theorem books_storeAdmitted {p : Admitted} {a : Appender} (s : Scene W) (h : Books a)
    (hp : a.outcomes[p.ticket]? = some .running) (d : Draft) (hash : Text) (e : Entry) :
    Books (storeAdmitted p d hash e a s).1 ∧
      (storeAdmitted p d hash e a s).1.acknowledged.Perm (e :: a.acknowledged) := by
  rw [storeAdmitted]
  refine ⟨(h.finish hp (.stored e)).of_same ⟨rfl, rfl, rfl⟩, ?_⟩
  exact perm_acknowledged_settleTicket (a := { a with admitted := none }) hp rfl (.stored e)

/-- What the writer takes from the queue leaves the books in order: a stop mark, or a request, whose ticket then does
not wait any more. -/
theorem books_dequeue {a : Appender} {item : Item} {rest : List Item} (hq : a.queue = item :: rest) (h : Books a) :
    Books { a with queue := rest } ∧ ∀ n r, item = .request n r →
      (n ∉ ({ a with queue := rest } : Appender).queued ∧ r.IsPlain ∧
        (a.outcomes[n]? = some .pending ∨ a.outcomes[n]? = some .cancelled) ∧
        ∀ p, a.admitted = some p → p.ticket ≠ n) := by
  have hd := h.distinct
  have hw := h.waiting
  have hp := h.plain
  rw [queued, hq] at hd hw
  rw [hq] at hp
  cases item with
  | stop =>
    refine ⟨⟨hd, hw, h.running, fun n r hr => hp n r (List.mem_cons_of_mem _ hr), h.plainAdmitted⟩, ?_⟩
    exact fun n r he => absurd he (by simp)
  | request n r =>
    obtain ⟨hn, hd⟩ := List.nodup_cons.mp hd
    have hwait := hw n List.mem_cons_self
    refine ⟨⟨hd, fun m hm => hw m (List.mem_cons_of_mem _ hm), h.running,
      fun m q hr => hp m q (List.mem_cons_of_mem _ hr), h.plainAdmitted⟩, ?_⟩
    intro m q he
    obtain ⟨rfl, rfl⟩ := Item.request.inj he
    refine ⟨hn, hp _ _ List.mem_cons_self, hwait, ?_⟩
    rintro p ha rfl
    have hrun := h.running p ha
    rcases hwait with hw | hw
    · exact absurd (Option.some.inj (hrun.symm.trans hw)) (by simp)
    · exact absurd (Option.some.inj (hrun.symm.trans hw)) (by simp)

theorem books_hold {a : Appender} {p : Admitted} (h : Books a) (hr : a.outcomes[p.ticket]? = some .running)
    (hp : p.request.IsPlain) : Books { a with admitted := some p } := by
  refine ⟨h.distinct, h.waiting, ?_, h.plain, ?_⟩
  · intro q hq
    rwa [← Option.some.inj hq]
  · intro q hq
    rwa [← Option.some.inj hq]

end Appender

end AuditTrail
