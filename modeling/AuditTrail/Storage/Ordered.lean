import AuditTrail.Entry

/-!
# Entries in the order of their instants

Stores order entries by instant and keep the order of insertion among equal instants. Instants with
and without an offset cannot be ordered together. Sorting yields the same entries
with their moments in order (`sort_eq_ok`).
-/

namespace AuditTrail.Ordered

def le (a b : Entry) : Bool := a.createdAt.moment ≤ b.createdAt.moment

def isUniform : List Entry → Bool
  | [] => true
  | e :: es => es.all fun f => e.createdAt.comparable f.createdAt

def sort (es : List Entry) : Except Fault (List Entry) :=
  if isUniform es then .ok (es.mergeSort le) else .error .wrongType

/-- The entries that a fallible test picks, up to its first fault. -/
def select (p : Entry → Except Fault Bool) : List Entry → Except Fault (List Entry)
  | [] => .ok []
  | e :: es =>
    match p e with
    | .error f => .error f
    | .ok true => (select p es).map (e :: ·)
    | .ok false => select p es

def justBefore (t : Instant) (es : List Entry) : Except Fault (Option Entry) :=
  (select (fun e => e.createdAt.before t) es).map List.getLast?

/-- The ordered entries between two instants, ends included. -/
def between (start finish : Instant) (es : List Entry) : Except Fault (List Entry) :=
  select (fun e => Instant.within start finish e.createdAt) es

theorem le_trans (a b c : Entry) (hab : le a b = true) (hbc : le b c = true) : le a c = true := by
  rw [le, decide_eq_true_iff] at hab hbc ⊢
  exact Int.le_trans hab hbc

theorem le_total (a b : Entry) : (le a b || le b a) = true := by
  rw [Bool.or_eq_true, le, le, decide_eq_true_iff, decide_eq_true_iff]
  exact Int.le_total a.createdAt.moment b.createdAt.moment

/-- Sorting keeps the entries and puts their moments in order. -/
theorem sort_eq_ok {es fs : List Entry} (h : sort es = .ok fs) :
    fs.Perm es ∧ fs.Pairwise fun a b => le a b = true := by
  rw [sort] at h
  by_cases hu : isUniform es = true
  · rw [if_pos hu, Except.ok.injEq] at h
    rw [← h]
    exact ⟨List.mergeSort_perm es le, List.pairwise_mergeSort le_trans le_total es⟩
  · rw [if_neg hu] at h
    exact absurd h (by simp)

theorem select_ok (p : Entry → Bool) (es : List Entry) : select (fun e => .ok (p e)) es = .ok (es.filter p) := by
  induction es with
  | nil => rfl
  | cons e es ih =>
    rw [select, List.filter_cons]
    cases p e with
    | true => simp [ih, Except.map]
    | false => simp [ih]

theorem sublist_of_select {p : Entry → Except Fault Bool} {es fs : List Entry} (h : select p es = .ok fs) :
    fs.Sublist es := by
  induction es generalizing fs with
  | nil =>
    rw [select, Except.ok.injEq] at h
    exact h ▸ List.Sublist.refl []
  | cons e es ih =>
    rw [select] at h
    cases hp : p e with
    | error f =>
      rw [hp] at h
      exact absurd h (by simp)
    | ok picked =>
      rw [hp] at h
      cases picked with
      | false => exact (ih h).cons e
      | true =>
        cases hs : select p es with
        | error f =>
          simp only [hs, Except.map] at h
          exact absurd h (by simp)
        | ok gs =>
          simp only [hs, Except.map, Except.ok.injEq] at h
          rw [← h]
          exact (ih hs).cons_cons e

end AuditTrail.Ordered
