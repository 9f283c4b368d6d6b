import AuditTrail.Proofs.Appender.Tallies

/-!
# The journal of an appender

What happens to an appender and to its tickets, in order. In a journal in good order the tickets are taken as they were
queued and ended as they were taken, each at most once, and what a ticket says is how it ended (`Journal.Record`). No
ticket is queued behind the closing, and the writer is started once (`Journal.Doors`).
-/

namespace AuditTrail

inductive Event where
  /-- The writer was started. -/
  | hired
  | queued (ticket : Nat) (r : Request)
  | taken (ticket : Nat)
  /-- The writer has found that the request was not withdrawn, and from now on it cannot be. -/
  | running (ticket : Nat)
  | ended (ticket : Nat) (o : Outcome)
  | closed

namespace Event

def isHired : Event → Bool
  | hired => true
  | _ => false

def queued? : Event → Option Nat
  | queued n _ => some n
  | _ => none

def taken? : Event → Option Nat
  | taken n => some n
  | _ => none

def ended? : Event → Option Nat
  | ended n _ => some n
  | _ => none

def entry? : Event → Option Entry
  | ended _ o => o.entry?
  | _ => none

end Event

def Outcome.isDecided : Outcome → Bool
  | .pending | .running => false
  | _ => true

def Entry.request (e : Entry) : Request := ⟨e.eventType, e.source, e.details, e.correlationId⟩

abbrev Journal := List Event

theorem filterMap_concat {α β : Type} (f : α → Option β) (xs : List α) (x : α) :
    (xs ++ [x]).filterMap f = xs.filterMap f ++ (f x).toList := by
  rw [List.filterMap_append, List.filterMap_cons]
  cases f x with
  | none => rfl
  | some y => rfl

namespace Journal

def queued (j : Journal) : List Nat := j.filterMap Event.queued?

def taken (j : Journal) : List Nat := j.filterMap Event.taken?

/-- The tickets that were stored, failed or dropped, in order. -/
def ended (j : Journal) : List Nat := j.filterMap Event.ended?

def stored (j : Journal) : List Entry := j.filterMap Event.entry?

/-- How often a writer was started. -/
def hirings (j : Journal) : Nat := j.countP Event.isHired

variable {j : Journal} {e : Event} {n : Nat} {o : Outcome}

@[simp] theorem queued_concat : queued (j ++ [e]) = queued j ++ e.queued?.toList := filterMap_concat Event.queued? j e

@[simp] theorem taken_concat : taken (j ++ [e]) = taken j ++ e.taken?.toList := filterMap_concat Event.taken? j e

@[simp] theorem ended_concat : ended (j ++ [e]) = ended j ++ e.ended?.toList := filterMap_concat Event.ended? j e

@[simp] theorem stored_concat : stored (j ++ [e]) = stored j ++ e.entry?.toList := filterMap_concat Event.entry? j e

private theorem mem_ended (h : .ended n o ∈ j) : n ∈ ended j := List.mem_filterMap.mpr ⟨.ended n o, h, rfl⟩

/-- The tickets of a journal are in order, where some wait in the queue, one may be in the writer's hand and one may run.
What a ticket says when it has ended is how it ended, and it was dropped exactly if it never ran. -/
structure Record (j : Journal) (outcomes : List Outcome) (waiting : List Nat) (hand running : Option Nat) : Prop where
  order : queued j = taken j ++ waiting
  work : taken j = ended j ++ (hand.toList ++ running.toList)
  distinct : (queued j).Nodup
  bound : ∀ n ∈ queued j, n < outcomes.length
  fates : ∀ n o, .ended n o ∈ j → outcomes[n]? = some o ∧ o.isDecided = true ∧ (o = .cancelled ↔ .running n ∉ j)
  ran : ∀ n, .running n ∈ j → n ∈ ended j ∨ running = some n
  runs : ∀ n, running = some n → .running n ∈ j

namespace Record

variable {outcomes : List Outcome} {waiting : List Nat} {hand running : Option Nat}

theorem nil : Record [] [] [] none none := by
  refine ⟨rfl, rfl, .nil, ?_, ?_, ?_, ?_⟩
  · exact fun _ hn => absurd hn List.not_mem_nil
  · exact fun _ _ he => absurd he List.not_mem_nil
  · exact fun _ he => absurd he List.not_mem_nil
  · exact fun _ hn => absurd hn (by simp)

private theorem nodup (h : Record j outcomes waiting hand running) :
    (ended j ++ (hand.toList ++ running.toList) ++ waiting).Nodup := by
  rw [← h.work, ← h.order]
  exact h.distinct

private theorem hand_not_ended (h : Record j outcomes waiting (some n) running) : n ∉ ended j := fun hn =>
  (List.nodup_append.mp (List.nodup_append.mp h.nodup).1).2.2 n hn n List.mem_cons_self rfl

private theorem running_not_ended (h : Record j outcomes waiting none (some n)) : n ∉ ended j := fun hn =>
  (List.nodup_append.mp (List.nodup_append.mp h.nodup).1).2.2 n hn n List.mem_cons_self rfl

private theorem ended_lt_length (h : Record j outcomes waiting hand running) (he : .ended n o ∈ j) :
    n < outcomes.length :=
  (List.getElem?_eq_some_iff.mp (h.fates n o he).1).1

theorem note (h : Record j outcomes waiting hand running) (he : e = .hired ∨ e = .closed) :
    Record (j ++ [e]) outcomes waiting hand running := by
  rcases he with rfl | rfl
  all_goals
    obtain ⟨order, work, distinct, bound, fates, ran, runs⟩ := h
    refine ⟨?_, ?_, ?_, ?_, ?_, ?_, ?_⟩
    all_goals simpa [Event.queued?, Event.taken?, Event.ended?]

theorem extend (h : Record j outcomes waiting hand running) (o : Outcome) :
    Record j (outcomes ++ [o]) waiting hand running := by
  refine ⟨h.order, h.work, h.distinct, ?_, ?_, h.ran, h.runs⟩
  · intro n hn
    have := h.bound n hn
    simp only [List.length_append]
    omega
  · intro n o' he
    rw [List.getElem?_append_left (h.ended_lt_length he)]
    exact h.fates n o' he

theorem enqueue (h : Record j outcomes waiting hand running) (r : Request) :
    Record (j ++ [.queued outcomes.length r]) (outcomes ++ [.pending]) (waiting ++ [outcomes.length]) hand running := by
  refine ⟨?_, ?_, ?_, ?_, ?_, ?_, ?_⟩
  · simp [h.order, Event.queued?, Event.taken?]
  · simpa [Event.taken?, Event.ended?] using h.work
  · rw [queued_concat]
    refine List.nodup_append.mpr ⟨h.distinct, List.nodup_singleton _, ?_⟩
    intro m hm k hk
    rw [List.mem_singleton.mp hk]
    exact Nat.ne_of_lt (h.bound m hm)
  · intro m hm
    rw [queued_concat] at hm
    rw [List.length_append]
    rcases List.mem_append.mp hm with hm | hm
    · have := h.bound m hm
      omega
    · rw [List.mem_singleton.mp hm]
      exact Nat.lt_succ_self _
  · intro m o he
    have hold : .ended m o ∈ j := by simpa using he
    rw [List.getElem?_append_left (h.ended_lt_length hold)]
    simpa using h.fates m o hold
  · simpa [Event.ended?] using h.ran
  · simpa using h.runs

theorem withdraw (h : Record j outcomes waiting hand running) (hn : outcomes[n]? = some .pending) :
    Record j (outcomes.set n .cancelled) waiting hand running := by
  refine ⟨h.order, h.work, h.distinct, ?_, ?_, h.ran, h.runs⟩
  · simpa using h.bound
  · intro m o he
    obtain ⟨ho, hd, hc⟩ := h.fates m o he
    have hne : n ≠ m := by
      rintro rfl
      rw [Option.some.inj (ho.symm.trans hn)] at hd
      exact absurd hd (by decide)
    rw [List.getElem?_set_ne hne]
    exact ⟨ho, hd, hc⟩

theorem take (h : Record j outcomes (n :: waiting) none none) :
    Record (j ++ [.taken n]) outcomes waiting (some n) none := by
  refine ⟨?_, ?_, ?_, ?_, ?_, ?_, ?_⟩
  · simp [h.order, Event.queued?, Event.taken?]
  · simp [h.work, Event.taken?, Event.ended?]
  · simpa [Event.queued?] using h.distinct
  · simpa [Event.queued?] using h.bound
  · simpa using h.fates
  · simpa [Event.ended?] using h.ran
  · simp

theorem drop (h : Record j outcomes waiting (some n) none) (hn : outcomes[n]? = some .cancelled) :
    Record (j ++ [.ended n .cancelled]) outcomes waiting none none := by
  have hidle : .running n ∉ j := fun hr => (h.ran n hr).elim h.hand_not_ended (by simp)
  refine ⟨?_, ?_, ?_, ?_, ?_, ?_, ?_⟩
  · simpa [Event.queued?, Event.taken?] using h.order
  · simp [h.work, Event.taken?, Event.ended?]
  · simpa [Event.queued?] using h.distinct
  · simpa [Event.queued?] using h.bound
  · intro m o he
    rcases List.mem_append.mp he with he | he
    · simpa using h.fates m o he
    · obtain ⟨rfl, rfl⟩ := Event.ended.inj (List.mem_singleton.mp he)
      exact ⟨hn, rfl, by simpa using hidle⟩
  · intro m hm
    have hold := h.ran m (by simpa using hm)
    rw [ended_concat]
    exact .inl (List.mem_append_left _ (hold.resolve_right (by simp)))
  · simp

theorem run (h : Record j outcomes waiting (some n) none) :
    Record (j ++ [.running n]) (outcomes.set n .running) waiting none (some n) := by
  refine ⟨?_, ?_, ?_, ?_, ?_, ?_, ?_⟩
  · simpa [Event.queued?, Event.taken?] using h.order
  · simp [h.work, Event.taken?, Event.ended?]
  · simpa [Event.queued?] using h.distinct
  · simpa [Event.queued?] using h.bound
  · intro m o he
    have hold : .ended m o ∈ j := by simpa using he
    have hne : n ≠ m := fun hm => h.hand_not_ended (hm ▸ mem_ended hold)
    rw [List.getElem?_set_ne hne]
    simpa [hne.symm] using h.fates m o hold
  · intro m hm
    rcases List.mem_append.mp hm with hm | hm
    · rw [ended_concat]
      exact .inl (List.mem_append_left _ ((h.ran m hm).resolve_right (by simp)))
    · exact .inr (congrArg some (Event.running.inj (List.mem_singleton.mp hm)).symm)
  · intro m hm
    rw [Option.some.inj hm]
    exact List.mem_concat_self

theorem settle (h : Record j outcomes waiting none (some n)) (hd : o.isDecided = true) (hc : o ≠ .cancelled) :
    Record (j ++ [.ended n o]) (outcomes.set n o) waiting none none := by
  have hlt : n < outcomes.length := by
    refine h.bound n ?_
    rw [h.order, h.work]
    simp
  refine ⟨?_, ?_, ?_, ?_, ?_, ?_, ?_⟩
  · simpa [Event.queued?, Event.taken?] using h.order
  · simp [h.work, Event.taken?, Event.ended?]
  · simpa [Event.queued?] using h.distinct
  · simpa [Event.queued?] using h.bound
  · intro m o' he
    rcases List.mem_append.mp he with he | he
    · have hne : n ≠ m := fun hm => h.running_not_ended (hm ▸ mem_ended he)
      rw [List.getElem?_set_ne hne]
      simpa using h.fates m o' he
    · obtain ⟨rfl, rfl⟩ := Event.ended.inj (List.mem_singleton.mp he)
      exact ⟨List.getElem?_set_self hlt, hd, by simpa [hc] using h.runs m rfl⟩
  · intro m hm
    rw [ended_concat]
    rcases h.ran m (by simpa using hm) with he | he
    · exact .inl (List.mem_append_left _ he)
    · rw [Option.some.inj he]
      exact .inl List.mem_concat_self
  · simp

end Record

/-- An appender was closed, or its writer started, exactly if the journal says so. The writer was not started twice, and
no ticket was queued behind the closing. -/
structure Doors (j : Journal) (closed started : Bool) : Prop where
  shut : closed = true ↔ .closed ∈ j
  after : j.Pairwise fun e f => e = .closed → f.queued? = none
  hired : hirings j = started.toNat

namespace Doors

variable {closed started : Bool}

theorem nil : Doors [] false false := ⟨by simp, .nil, rfl⟩

theorem note (h : Doors j closed started) (hh : e.isHired = false) (hc : e ≠ .closed)
    (hq : closed = true → e.queued? = none) : Doors (j ++ [e]) closed started := by
  refine ⟨?_, ?_, ?_⟩
  · rw [h.shut, List.mem_append, List.mem_singleton]
    exact ⟨.inl, fun hm => hm.resolve_right hc.symm⟩
  · refine List.pairwise_append.mpr ⟨h.after, List.pairwise_singleton _ _, ?_⟩
    rintro _ hm f hf rfl
    rw [List.mem_singleton.mp hf]
    exact hq (h.shut.mpr hm)
  · rw [hirings, List.countP_append, List.countP_singleton, hh]
    exact h.hired

theorem close (h : Doors j closed started) : Doors (j ++ [.closed]) true started := by
  refine ⟨by simp, ?_, ?_⟩
  · refine List.pairwise_append.mpr ⟨h.after, List.pairwise_singleton _ _, ?_⟩
    intro _ _ f hf _
    rw [List.mem_singleton.mp hf]
    rfl
  · rw [hirings, List.countP_append]
    exact h.hired

theorem hire (h : Doors j closed false) : Doors (j ++ [.hired]) closed true := by
  refine ⟨by simpa using h.shut, ?_, ?_⟩
  · refine List.pairwise_append.mpr ⟨h.after, List.pairwise_singleton _ _, ?_⟩
    intro _ _ f hf _
    rw [List.mem_singleton.mp hf]
    rfl
  · rw [hirings, List.countP_append]
    exact congrArg (· + 1) h.hired

end Doors

end Journal

end AuditTrail
