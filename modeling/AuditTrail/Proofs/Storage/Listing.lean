import AuditTrail.Storage.Site

/-!
# Stores that list entries

A store lists entries when it answers every question about instants from them, in the order of
their instants, and stays as it is. A store in memory without staged failures lists its sorted rows,
and a log file that can be read lists its sorted lines (`Handle.lists_of_holds`).
-/

namespace AuditTrail

namespace Instant

private theorem notAfter_of_aware {s t : Instant} (hs : s.isAware = true) (ht : t.isAware = true) :
    s.notAfter t = .ok (decide (s.moment ≤ t.moment)) := by
  rw [notAfter, comparable, hs, ht]
  rfl

theorem before_of_aware {s t : Instant} (hs : s.isAware = true) (ht : t.isAware = true) :
    s.before t = .ok (decide (s.moment < t.moment)) := by
  rw [before, comparable, hs, ht]
  rfl

private theorem within_of_aware {start finish t : Instant} (hs : start.isAware = true)
    (hf : finish.isAware = true) (ht : t.isAware = true) :
    within start finish t = .ok (decide (start.moment ≤ t.moment) && decide (t.moment ≤ finish.moment)) := by
  rw [within, notAfter_of_aware hs ht, notAfter_of_aware ht hf]
  cases decide (start.moment ≤ t.moment) <;> rfl

end Instant

namespace Ordered

private theorem select_congr {p q : Entry → Except Fault Bool} {es : List Entry}
    (h : ∀ e ∈ es, p e = q e) : select p es = select q es := by
  induction es with
  | nil => rfl
  | cons e rest ih =>
    have hr := ih fun f hf => h f (List.mem_cons_of_mem e hf)
    rw [select, select, h e List.mem_cons_self, hr]

/-- The entries between two moments, ends included. -/
def inRange (start finish : Instant) (es : List Entry) : List Entry :=
  es.filter fun e => decide (start.moment ≤ e.createdAt.moment) && decide (e.createdAt.moment ≤ finish.moment)

def earlier (t : Instant) (es : List Entry) : List Entry :=
  es.filter fun e => decide (e.createdAt.moment < t.moment)

theorem mem_inRange {start finish : Instant} {es : List Entry} {e : Entry} :
    e ∈ inRange start finish es ↔
      e ∈ es ∧ start.moment ≤ e.createdAt.moment ∧ e.createdAt.moment ≤ finish.moment := by
  simp only [inRange, List.mem_filter, Bool.and_eq_true, decide_eq_true_eq]

theorem between_of_aware {start finish : Instant} {es : List Entry} (hs : start.isAware = true)
    (hf : finish.isAware = true) (he : ∀ e ∈ es, e.createdAt.isAware = true) :
    between start finish es = .ok (inRange start finish es) := by
  rw [between, inRange, ← select_ok]
  exact select_congr fun e hm => Instant.within_of_aware hs hf (he e hm)

theorem justBefore_of_aware {t : Instant} {es : List Entry} (ht : t.isAware = true)
    (he : ∀ e ∈ es, e.createdAt.isAware = true) :
    justBefore t es = .ok (earlier t es).getLast? := by
  have hc : select (fun e => e.createdAt.before t) es = .ok (earlier t es) := by
    rw [earlier, ← select_ok]
    exact select_congr fun e hm => Instant.before_of_aware (he e hm) ht
  rw [justBefore, hc]
  rfl

def IsSorted (es : List Entry) : Prop := es.Pairwise fun a b => a.createdAt.moment ≤ b.createdAt.moment

theorem isSorted_of_sort {es fs : List Entry} (h : sort es = .ok fs) : IsSorted fs := by
  refine (sort_eq_ok h).2.imp ?_
  intro a b hab
  exact of_decide_eq_true hab

theorem sort_of_aware {es : List Entry} (ha : ∀ e ∈ es, e.createdAt.isAware = true) :
    sort es = .ok (es.mergeSort le) := by
  have hu : isUniform es = true := by
    cases es with
    | nil => rfl
    | cons e rest =>
      rw [isUniform, List.all_eq_true]
      intro f hf
      rw [Instant.comparable, ha e List.mem_cons_self, ha f (List.mem_cons_of_mem e hf)]
      rfl
  rw [sort, if_pos hu]

theorem sort_of_isSorted {es : List Entry} (ha : ∀ e ∈ es, e.createdAt.isAware = true)
    (h : IsSorted es) : sort es = .ok es := by
  have hp : es.Pairwise fun a b => le a b = true := h.imp fun hab => decide_eq_true hab
  rw [sort_of_aware ha, List.mergeSort_of_pairwise hp]

private theorem eq_filter_append_filter_not {p : Entry → Bool} {es : List Entry}
    (h : es.Pairwise fun a b => p b = true → p a = true) :
    es = es.filter p ++ es.filter fun e => !p e := by
  induction es with
  | nil => rfl
  | cons e rest ih =>
    obtain ⟨hd, tl⟩ := List.pairwise_cons.mp h
    by_cases he : p e = true
    · simp only [List.filter_cons, he, Bool.not_true, Bool.false_eq_true, if_true, if_false, List.cons_append]
      exact congrArg (e :: ·) (ih tl)
    · -- The class has ended, so the rest has none of it.
      have hn : ∀ f ∈ e :: rest, ¬p f = true := by
        intro f hf
        rcases List.mem_cons.mp hf with rfl | hm
        · exact he
        · exact fun hp => he (hd f hm hp)
      rw [List.filter_eq_nil_iff.mpr hn, List.nil_append, eq_comm, List.filter_eq_self]
      intro f hf
      simp only [hn f hf, Bool.not_false]

theorem IsSorted.split {es : List Entry} (h : IsSorted es) (start finish : Instant) :
    ∃ later, es = earlier start es ++ (inRange start finish es ++ later) := by
  have hs := eq_filter_append_filter_not (p := fun e => decide (e.createdAt.moment < start.moment))
    (h.imp fun hab hb => decide_eq_true (by have := of_decide_eq_true hb; omega))
  have ht : IsSorted (es.filter fun e => !decide (e.createdAt.moment < start.moment)) :=
    h.sublist List.filter_sublist
  have hf := eq_filter_append_filter_not (p := fun e => decide (e.createdAt.moment ≤ finish.moment))
    (ht.imp fun hab hb => decide_eq_true (by have := of_decide_eq_true hb; omega))
  have hr : ((es.filter fun e => !decide (e.createdAt.moment < start.moment)).filter
      fun e => decide (e.createdAt.moment ≤ finish.moment)) = inRange start finish es := by
    rw [List.filter_filter, inRange]
    apply List.filter_congr
    intro e _
    have hd : (!decide (e.createdAt.moment < start.moment)) = decide (start.moment ≤ e.createdAt.moment) := by
      rw [← decide_not]
      exact decide_eq_decide.mpr Int.not_lt
    rw [hd, Bool.and_comm]
  rw [hr] at hf
  exact ⟨_, hs.trans (congrArg (earlier start es ++ ·) hf)⟩

theorem earlier_of_inRange {start finish : Instant} {es rest : List Entry} {e : Entry}
    (h : IsSorted es) (hr : inRange start finish es = e :: rest) :
    earlier e.createdAt es = earlier start es := by
  have he := mem_inRange.mp (hr ▸ List.mem_cons_self : e ∈ inRange start finish es)
  have hs : IsSorted (e :: rest) := hr ▸ h.sublist List.filter_sublist
  apply List.filter_congr
  intro f hf
  rw [decide_eq_decide]
  constructor
  · intro hlt
    by_cases hn : f.createdAt.moment < start.moment
    · exact hn
    · have hm : f ∈ e :: rest := hr ▸ mem_inRange.mpr ⟨hf, by omega, by omega⟩
      rcases List.mem_cons.mp hm with rfl | hm
      · omega
      · have := (List.pairwise_cons.mp hs).1 f hm
        omega
  · intro hlt
    omega

theorem IsSorted.eq_earlier_append_inRange {es : List Entry} (h : IsSorted es) (start finish : Instant)
    (hf : ∀ e ∈ es, e.createdAt.moment ≤ finish.moment) : es = earlier start es ++ inRange start finish es := by
  have hs := eq_filter_append_filter_not (p := fun e => decide (e.createdAt.moment < start.moment))
    (h.imp fun hab hb => decide_eq_true (by have := of_decide_eq_true hb; omega))
  have hr : (es.filter fun e => !decide (e.createdAt.moment < start.moment)) = inRange start finish es := by
    apply List.filter_congr
    intro e he
    rw [decide_eq_true (hf e he), Bool.and_true, ← decide_not]
    exact decide_eq_decide.mpr Int.not_lt
  rw [hr] at hs
  exact hs

section Windows

variable {es : List Entry} {start middle next finish : Instant}

theorem IsSorted.earlier_window (h : IsSorted es) (hn : next.moment = middle.moment + 1)
    (hle : start.moment ≤ next.moment) : earlier next es = earlier start es ++ inRange start middle es := by
  have hs : IsSorted (earlier next es) := h.sublist List.filter_sublist
  have hsplit := hs.eq_earlier_append_inRange start middle fun e he => by
    have := of_decide_eq_true (List.mem_filter.mp he).2
    omega
  have hbefore : earlier start (earlier next es) = earlier start es := by
    rw [earlier, earlier, List.filter_filter]
    apply List.filter_congr
    intro e _
    rw [Bool.eq_iff_iff]
    simp only [Bool.and_eq_true, decide_eq_true_eq]
    omega
  have hin : inRange start middle (earlier next es) = inRange start middle es := by
    rw [inRange, earlier, List.filter_filter]
    apply List.filter_congr
    intro e _
    rw [Bool.eq_iff_iff]
    simp only [Bool.and_eq_true, decide_eq_true_eq]
    omega
  rwa [hbefore, hin] at hsplit

theorem IsSorted.inRange_windows (h : IsSorted es) (hn : next.moment = middle.moment + 1)
    (hle : start.moment ≤ next.moment) (hlt : middle.moment < finish.moment) :
    inRange start finish es = inRange start middle es ++ inRange next finish es := by
  have hs : IsSorted (inRange start finish es) := h.sublist List.filter_sublist
  have hsplit := eq_filter_append_filter_not (p := fun e => decide (e.createdAt.moment ≤ middle.moment))
    (hs.imp fun hab hb => decide_eq_true (by have := of_decide_eq_true hb; omega))
  have hfront : ((inRange start finish es).filter fun e => decide (e.createdAt.moment ≤ middle.moment)) =
      inRange start middle es := by
    rw [inRange, List.filter_filter]
    apply List.filter_congr
    intro e _
    rw [Bool.eq_iff_iff]
    simp only [Bool.and_eq_true, decide_eq_true_eq]
    omega
  have hback : ((inRange start finish es).filter fun e => !decide (e.createdAt.moment ≤ middle.moment)) =
      inRange next finish es := by
    rw [inRange, List.filter_filter]
    apply List.filter_congr
    intro e _
    rw [Bool.eq_iff_iff]
    simp only [Bool.and_eq_true, Bool.not_eq_true', decide_eq_true_eq, decide_eq_false_iff_not]
    omega
  rwa [hfront, hback] at hsplit

end Windows

end Ordered

/-- A store answers the questions about instants from given entries, in their order, and stays as
it is. -/
structure Store.Lists {W : Type} (store : Store W) (w : W) (es : List Entry) : Prop where
  sorted : Ordered.IsSorted es
  findBetween : ∀ start finish, store.findBetween start finish w = (Ordered.between start finish es, w)
  findJustBefore : ∀ t, store.findJustBefore t w = (Ordered.justBefore t es, w)

theorem Memory.lists {m : Memory} {es : List Entry} (hf : m.failures = [])
    (hs : Ordered.sort m.entries = .ok es) : Memory.store.Lists m es where
  sorted := Ordered.isSorted_of_sort hs
  findBetween start finish := by simp only [store, reading, hf, hs]
  findJustBefore t := by simp only [store, reading, hf, hs]

private theorem FileLog.lists {path : Text} {w : Files} {es : List Entry} (h : entries path w.disk = .ok es) :
    (FileLog.store path).Lists w es where
  sorted := by
    rw [entries] at h
    split at h
    · exact Ordered.isSorted_of_sort h
    · exact absurd h (by simp)
  findBetween start finish := by simp only [store, reading, h, bind, Except.bind]
  findJustBefore t := by simp only [store, reading, h, bind, Except.bind]

private theorem Store.Lists.within {V W : Type} {store : Store V} {get : W → V} {set : V → W → W} {w : W}
    {es : List Entry} (h : store.Lists (get w) es) (hset : set (get w) w = w) :
    (store.within get set).Lists w es where
  sorted := h.sorted
  findBetween start finish := by simp only [Store.within, h.findBetween, hset]
  findJustBefore t := by simp only [Store.within, h.findJustBefore, hset]

namespace Handle

/-- A store in memory or in a file whose reads succeed holds entries in the order of their instants. -/
def Holds : Handle → Site → List Entry → Prop
  | memory, s, es => s.memory.failures = [] ∧ Ordered.sort s.memory.entries = .ok es
  | file path, s, es => FileLog.entries path s.files.disk = .ok es
  | objects _, _, _ => False

theorem lists_of_holds {h : Handle} {s : Site} {es : List Entry} (hh : h.Holds s es) :
    h.store.Lists s es := by
  cases h with
  | memory =>
    rw [store]
    exact Store.Lists.within (Memory.lists hh.1 hh.2) rfl
  | file path =>
    rw [store]
    exact Store.Lists.within (FileLog.lists hh) rfl
  | objects log => exact absurd hh (by simp [Holds])

end Handle

end AuditTrail
