import AuditTrail.Proofs.Appender.Steps
import AuditTrail.Proofs.Appender.Tickets

/-!
# Tallies of tickets

Each waiting ticket is its own and either pending or withdrawn, every pending ticket waits, and the ticket at the writer
is the one that runs (`Tally`). Everything that happens to an appender keeps its tally, if its requests can be counted
(`Appender.invariant_tidy`).
-/

namespace AuditTrail

theorem getElem?_concat_eq {α : Type} (xs : List α) (x : α) (m : Nat) :
    (xs ++ [x])[m]? = if m = xs.length then some x else xs[m]? := by
  split
  · rename_i hm
    rw [hm, List.getElem?_concat_length]
  · rename_i hm
    rcases Nat.lt_or_gt_of_ne hm with hlt | hgt
    · rw [List.getElem?_append_left hlt]
    · rw [List.getElem?_eq_none (by simp; omega), List.getElem?_eq_none (by omega)]

/-- The outcomes of tickets some of which wait, in a given order, and one of which may run. -/
structure Tally (outcomes : List Outcome) (waiting : List Nat) (running : Option Nat) : Prop where
  distinct : waiting.Nodup
  waits : ∀ n ∈ waiting, outcomes[n]? = some .pending ∨ outcomes[n]? = some .cancelled
  pending : ∀ n, outcomes[n]? = some .pending → n ∈ waiting
  running : ∀ n, outcomes[n]? = some .running ↔ running = some n

namespace Tally

variable {outcomes : List Outcome} {waiting : List Nat} {running : Option Nat} {n : Nat} {o : Outcome}

private theorem nil : Tally [] [] none := ⟨.nil, by simp, by simp, by simp⟩

theorem lt_length (h : Tally outcomes waiting running) (hn : n ∈ waiting) : n < outcomes.length := by
  rcases h.waits n hn with hw | hw
  · exact (List.getElem?_eq_some_iff.mp hw).1
  · exact (List.getElem?_eq_some_iff.mp hw).1

theorem running_lt_length (h : Tally outcomes waiting (some n)) : n < outcomes.length :=
  (List.getElem?_eq_some_iff.mp ((h.running n).mpr rfl)).1

private theorem running_not_waiting (h : Tally outcomes waiting (some n)) : n ∉ waiting := by
  intro hn
  have hr := (h.running n).mpr rfl
  rcases h.waits n hn with hw | hw
  · exact absurd (hr.symm.trans hw) (by simp)
  · exact absurd (hr.symm.trans hw) (by simp)

theorem extend (h : Tally outcomes waiting running) (hp : o ≠ .pending) (hr : o ≠ .running) :
    Tally (outcomes ++ [o]) waiting running := by
  have hold : ∀ (m : Nat) (o' : Outcome), o' ≠ o → ((outcomes ++ [o])[m]? = some o' ↔ outcomes[m]? = some o') := by
    intro m o' hne
    rw [getElem?_concat_eq]
    split
    · rename_i hm
      rw [hm, List.getElem?_eq_none (Nat.le_refl _)]
      simp [hne.symm]
    · rfl
  refine ⟨h.distinct, ?_, ?_, ?_⟩
  · intro m hm
    rw [List.getElem?_append_left (h.lt_length hm)]
    exact h.waits m hm
  · exact fun m hm => h.pending m ((hold m _ hp.symm).mp hm)
  · exact fun m => (hold m _ hr.symm).trans (h.running m)

private theorem enqueue (h : Tally outcomes waiting running) :
    Tally (outcomes ++ [.pending]) (waiting ++ [outcomes.length]) running := by
  refine ⟨?_, ?_, ?_, ?_⟩
  · refine List.nodup_append.mpr ⟨h.distinct, List.nodup_singleton _, ?_⟩
    intro m hm k hk
    rw [List.mem_singleton.mp hk]
    exact Nat.ne_of_lt (h.lt_length hm)
  · intro m hm
    rw [getElem?_concat_eq]
    split
    · exact .inl rfl
    · rename_i hne
      rcases List.mem_append.mp hm with hm | hm
      · exact h.waits m hm
      · exact absurd (List.mem_singleton.mp hm) hne
  · intro m hm
    rw [getElem?_concat_eq] at hm
    split at hm
    · rename_i he
      exact he ▸ List.mem_concat_self
    · exact List.mem_append_left _ (h.pending m hm)
  · intro m
    rw [← h.running m, getElem?_concat_eq]
    split
    · rename_i he
      rw [he, List.getElem?_eq_none (Nat.le_refl _)]
      simp
    · rfl

theorem withdraw (h : Tally outcomes waiting running) (hn : outcomes[n]? = some .pending) :
    Tally (outcomes.set n .cancelled) waiting running := by
  have hlt := (List.getElem?_eq_some_iff.mp hn).1
  refine ⟨h.distinct, ?_, ?_, ?_⟩
  · intro m hm
    by_cases he : n = m
    · rw [← he, List.getElem?_set_self hlt]
      exact .inr rfl
    · rw [List.getElem?_set_ne he]
      exact h.waits m hm
  · intro m hm
    by_cases he : n = m
    · rw [← he, List.getElem?_set_self hlt] at hm
      exact absurd hm (by simp)
    · rw [List.getElem?_set_ne he] at hm
      exact h.pending m hm
  · intro m
    by_cases he : n = m
    · rw [← h.running m, ← he, List.getElem?_set_self hlt, hn]
      simp
    · rw [List.getElem?_set_ne he]
      exact h.running m

theorem drop {rest : List Nat} (h : Tally outcomes (n :: rest) running) (hn : outcomes[n]? = some .cancelled) :
    Tally outcomes rest running := by
  refine ⟨(List.nodup_cons.mp h.distinct).2, fun m hm => h.waits m (List.mem_cons_of_mem n hm), ?_, h.running⟩
  intro m hm
  rcases List.mem_cons.mp (h.pending m hm) with rfl | hrest
  · exact absurd (hn.symm.trans hm) (by simp)
  · exact hrest

theorem take {rest : List Nat} (h : Tally outcomes (n :: rest) none) : Tally (outcomes.set n .running) rest (some n) := by
  obtain ⟨hn, hd⟩ := List.nodup_cons.mp h.distinct
  have hlt := h.lt_length List.mem_cons_self
  refine ⟨hd, ?_, ?_, ?_⟩
  · intro m hm
    have hne : n ≠ m := fun he => hn (he ▸ hm)
    rw [List.getElem?_set_ne hne]
    exact h.waits m (List.mem_cons_of_mem n hm)
  · intro m hm
    by_cases he : n = m
    · rw [← he, List.getElem?_set_self hlt] at hm
      exact absurd hm (by simp)
    · rw [List.getElem?_set_ne he] at hm
      exact (List.mem_cons.mp (h.pending m hm)).resolve_left (Ne.symm he)
  · intro m
    by_cases he : n = m
    · rw [← he, List.getElem?_set_self hlt]
      simp
    · rw [List.getElem?_set_ne he, h.running m]
      simp [he]

theorem settle (h : Tally outcomes waiting (some n)) (hp : o ≠ .pending) (hr : o ≠ .running) :
    Tally (outcomes.set n o) waiting none := by
  have hlt := h.running_lt_length
  refine ⟨h.distinct, ?_, ?_, ?_⟩
  · intro m hm
    have hne : n ≠ m := fun he => h.running_not_waiting (he ▸ hm)
    rw [List.getElem?_set_ne hne]
    exact h.waits m hm
  · intro m hm
    by_cases he : n = m
    · rw [← he, List.getElem?_set_self hlt] at hm
      exact absurd (Option.some.inj hm) hp
    · rw [List.getElem?_set_ne he] at hm
      exact h.pending m hm
  · intro m
    by_cases he : n = m
    · rw [← he, List.getElem?_set_self hlt]
      simp [hr]
    · rw [List.getElem?_set_ne he, h.running m]
      simp [he]

end Tally

namespace Appender

variable {W : Type} {store : Store W} {Q : Request → Prop}

/-- The tickets are tallied, and the requests at the writer and in the queue have a property. -/
structure Tidy (Q : Request → Prop) (a : Appender) : Prop where
  tally : Tally a.outcomes a.queued (a.admitted.map Admitted.ticket)
  requests : ∀ r ∈ a.awaited, Q r

theorem Tidy.of_same {a b : Appender} (h : Tidy Q a) (hs : SameBooks b a) : Tidy Q b := by
  obtain ⟨tally, requests⟩ := h
  obtain ⟨hq, hp, ho⟩ := hs
  refine ⟨?_, ?_⟩
  · rw [queued, hq, hp, ho]
    exact tally
  · rw [awaited, hq, hp]
    exact requests

theorem tidy_fresh : Tidy Q .fresh := ⟨.nil, fun _ hr => absurd hr List.not_mem_nil⟩

theorem Tidy.enqueue {a : Appender} (h : Tidy Q a) {r : Request} (hr : Q r) :
    Tidy Q { a with
      outcomes := a.outcomes ++ [.pending]
      queue := a.queue ++ [.request a.outcomes.length r] } := by
  refine ⟨?_, ?_⟩
  · rw [queued, List.filterMap_append]
    exact h.tally.enqueue
  · intro p hp
    rw [awaited, List.filterMap_append, ← List.append_assoc] at hp
    rcases List.mem_append.mp hp with hm | hm
    · exact h.requests p hm
    · exact List.mem_singleton.mp hm ▸ hr

theorem Tidy.stop {a : Appender} (h : Tidy Q a) : Tidy Q { a with queue := a.queue ++ [.stop] } := by
  refine ⟨?_, ?_⟩
  · rw [queued, List.filterMap_append]
    exact (List.append_nil a.queued).symm ▸ h.tally
  · rw [awaited, List.filterMap_append]
    exact (List.append_nil (a.queue.filterMap Item.request?)).symm ▸ h.requests

private theorem tidy_submit {r : Request} (hr : ∀ q, r.accepted = some q → Q q) {a : Appender} (s : Scene W)
    (h : Tidy Q a) :
    Tidy Q (submit r (a, s)).2.1 := by
  rcases submit_cases r a s with ⟨q, hq, -, he⟩ | he | ⟨f, he⟩
  · rw [he]
    exact (h.enqueue (hr q hq)).of_same ⟨rfl, rfl, rfl⟩
  · rw [he]
    exact h
  · rw [he]
    exact ⟨h.tally.extend (by simp) (by simp), h.requests⟩

private theorem tidy_cancel (n : Nat) {a : Appender} (h : Tidy Q a) : Tidy Q (a.cancel n).2 := by
  rw [cancel]
  split
  · exact ⟨h.tally.withdraw ‹_›, h.requests⟩
  · exact h
  · exact h

theorem queued_cons {a : Appender} {n : Nat} {r : Request} {rest : List Item} (hq : a.queue = .request n r :: rest) :
    a.queued = n :: rest.filterMap Item.ticket? := by
  rw [queued, hq]
  rfl

section Writer

variable (hQ : ∀ r, Q r → r.eventType.display?.isSome = true)
include hQ

theorem isUncountable_eq_false {r : Request} (hr : Q r) (w : Watch) : isUncountable r w = false := by
  rw [isUncountable, Bool.and_eq_false_iff]
  right
  rw [← Bool.not_eq_true, Option.isNone_iff_eq_none]
  intro hn
  have hd := hQ _ hr
  rw [hn] at hd
  exact absurd hd (by simp)

theorem failAdmitted_eq {p : Admitted} (hp : Q p.request) (f : Fault) (a : Appender) (s : Scene W) :
    (failAdmitted f p a s).1 = ({ a with admitted := none }).settleTicket p.ticket (.failed f) :=
  failAdmitted_of_countable (isUncountable_eq_false hQ hp s.watch) f a

theorem tidy_takeNext {a : Appender} (s : Scene W) (ha : a.admitted = none) (h : Tidy Q a) :
    Tidy Q (takeNext store a s).1 := by
  cases hq : a.queue with
  | nil =>
    rw [takeNext, hq]
    exact h
  | cons item rest =>
    have hrequests : ∀ r ∈ rest.filterMap Item.request?, Q r := by
      intro r hr
      refine h.requests r (List.mem_append_right _ ?_)
      rw [hq]
      exact (List.Sublist.filterMap _ (List.sublist_cons_self item rest)).subset hr
    have htally := h.tally
    cases item with
    | stop =>
      rw [takeNext_stop hq]
      rw [queued, hq] at htally
      exact ⟨htally, by rwa [awaited, ha]⟩
    | request n r =>
      have hr : Q r := h.requests r (List.mem_append_right _ (by rw [hq]; exact List.mem_cons_self))
      rw [queued_cons hq, ha] at htally
      by_cases hc : a.outcomes[n]? = some .cancelled
      · rw [takeNext_cancelled hq hc]
        exact ⟨ha ▸ htally.drop hc, by rwa [awaited, ha]⟩
      · have hheld : ∀ q ∈ r :: rest.filterMap Item.request?, Q q := List.forall_mem_cons.mpr ⟨hr, hrequests⟩
        cases ht : a.tip with
        | some t =>
          rw [takeNext_of_tip hq hc ht]
          exact ⟨htally.take, hheld⟩
        | none =>
          rcases takeNext_of_no_tip hq hc ht s with ⟨f, w, -, he⟩ | ⟨last, w, -, he⟩
          · rw [he, failAdmitted_eq hQ hr]
            exact ⟨htally.take.settle (by simp) (by simp), hrequests⟩
          · rw [he]
            exact ⟨htally.take, hheld⟩

theorem tidy_commit {p : Admitted} {a : Appender} (s : Scene W) (ha : a.admitted = some p) (h : Tidy Q a) :
    Tidy Q (commit store p a s).1 := by
  have hp : Q p.request := h.requests _ (by rw [awaited, ha]; exact List.mem_cons_self)
  have hrequests : ∀ r ∈ a.queue.filterMap Item.request?, Q r := fun r hr =>
    h.requests r (List.mem_append_right _ hr)
  have htally : Tally a.outcomes a.queued (some p.ticket) := by
    have ht := h.tally
    rwa [ha] at ht
  rcases commit_cases store p a s with ⟨f, s', hc, -⟩ | ⟨_, hash, d, e, s', -, -, hc⟩
  · rw [hc, failAdmitted_eq hQ hp]
    exact ⟨htally.settle (by simp) (by simp), hrequests⟩
  · rw [hc, storeAdmitted]
    exact ⟨htally.settle (by simp) (by simp), hrequests⟩

theorem invariant_tidy : Invariant store (fun r => ∀ q, r.accepted = some q → Q q) (Tidy Q) where
  fresh := tidy_fresh
  start a s h := by
    obtain ⟨tip, lastAt, started, he⟩ := start_cases store a s
    rw [he]
    exact h.of_same ⟨rfl, rfl, rfl⟩
  submit r a s hr h := tidy_submit hr s h
  cancel n a h := tidy_cancel n h
  takeNext a s ha h := tidy_takeNext hQ s ha h
  commit p a s ha h := tidy_commit hQ s ha h
  shut a h := h.of_same ⟨rfl, rfl, rfl⟩
  stop a h := h.stop.of_same ⟨rfl, rfl, rfl⟩

end Writer

end Appender

end AuditTrail
