import AuditTrail.Proofs.Storage.Answers

/-!
# Questions to a store

Whatever a store is asked for is one of a few questions, and the answer is a list of entries (`Store.ask`). A store
that answers from given entries picks the answer among them (`Store.Answers.ask`). Entries that are read one after
the other are gathered up to the first one that settles the question or cannot be read (`Fault.gather`), so that a
search fails exactly if all before a fault go on with it (`Fault.gather_eq_error_iff`).
-/

namespace AuditTrail

namespace Fault

variable {α β : Type}

/-- Results of a fallible function, one after the other, up to the first that settles a search. -/
def gather (settles : β → Bool) (f : α → Except Fault β) : List α → Except Fault (List β)
  | [] => .ok []
  | x :: xs => f x >>= fun y => if settles y then .ok [y] else (gather settles f xs).map (y :: ·)

variable {settles : β → Bool} {f : α → Except Fault β} {xs : List α}

private theorem gather_cons_of_error {x : α} {e : Fault} (h : f x = .error e) :
    gather settles f (x :: xs) = .error e := by
  rw [gather, h]
  rfl

private theorem gather_cons_of_settled {x : α} {y : β} (h : f x = .ok y) (hs : settles y = true) :
    gather settles f (x :: xs) = .ok [y] := by
  simp only [gather, h, bind, Except.bind, hs, if_true]

private theorem gather_cons_of_open {x : α} {y : β} (h : f x = .ok y) (hs : settles y = false) :
    gather settles f (x :: xs) = (gather settles f xs).map (y :: ·) := by
  simp only [gather, h, bind, Except.bind, hs, Bool.false_eq_true, if_false]

theorem gather_congr {g : α → Except Fault β} (h : ∀ x ∈ xs, f x = g x) :
    gather settles f xs = gather settles g xs := by
  induction xs with
  | nil => rfl
  | cons x xs ih =>
    rw [gather, gather, h x List.mem_cons_self, ih fun y hy => h y (List.mem_cons_of_mem x hy)]

/-- A search fails exactly at the first fault, if nothing before it settles the search. -/
theorem gather_eq_error_iff {e : Fault} : gather settles f xs = .error e ↔
    ∃ front x behind, xs = front ++ x :: behind ∧ (∀ y ∈ front, ∃ z, f y = .ok z ∧ settles z = false) ∧
      f x = .error e := by
  constructor
  · induction xs with
    | nil => exact fun h => absurd h (by simp [gather])
    | cons x xs ih =>
      intro h
      cases hx : f x with
      | error d =>
        rw [gather_cons_of_error hx, Except.error.injEq] at h
        exact ⟨[], x, xs, rfl, fun y hy => absurd hy List.not_mem_nil, h ▸ hx⟩
      | ok z =>
        cases hs : settles z with
        | true =>
          rw [gather_cons_of_settled hx hs] at h
          exact absurd h (by simp)
        | false =>
          rw [gather_cons_of_open hx hs, map_eq_error_iff] at h
          obtain ⟨front, y, behind, rfl, hfront, hy⟩ := ih h
          exact ⟨x :: front, y, behind, rfl, List.forall_mem_cons.mpr ⟨⟨z, hx, hs⟩, hfront⟩, hy⟩
  · rintro ⟨front, x, behind, rfl, hfront, hx⟩
    induction front with
    | nil => exact gather_cons_of_error hx
    | cons y front ih =>
      obtain ⟨⟨z, hz, hs⟩, hrest⟩ := List.forall_mem_cons.mp hfront
      rw [List.cons_append, gather_cons_of_open hz hs, map_eq_error_iff]
      exact ih hrest

theorem mem_of_gather {ys : List β} (h : gather settles f xs = .ok ys) {y : β} (hy : y ∈ ys) :
    ∃ x ∈ xs, f x = .ok y := by
  induction xs generalizing ys with
  | nil =>
    obtain rfl := Except.ok.inj h
    exact absurd hy List.not_mem_nil
  | cons x xs ih =>
    cases hx : f x with
    | error d =>
      rw [gather_cons_of_error hx] at h
      exact absurd h (by simp)
    | ok z =>
      cases hs : settles z with
      | true =>
        rw [gather_cons_of_settled hx hs, Except.ok.injEq] at h
        obtain rfl := List.mem_singleton.mp (h ▸ hy)
        exact ⟨x, List.mem_cons_self, hx⟩
      | false =>
        rw [gather_cons_of_open hx hs] at h
        obtain ⟨zs, hzs, rfl⟩ := map_eq_ok_iff.mp h
        rcases List.mem_cons.mp hy with rfl | hm
        · exact ⟨x, List.mem_cons_self, hx⟩
        · obtain ⟨x', hx', hf⟩ := ih hzs hm
          exact ⟨x', List.mem_cons_of_mem x hx', hf⟩

theorem exists_gather_of_forall (h : ∀ x ∈ xs, ∃ y, f x = .ok y) : ∃ ys, gather settles f xs = .ok ys := by
  cases hg : gather settles f xs with
  | ok ys => exact ⟨ys, rfl⟩
  | error e =>
    obtain ⟨front, x, behind, rfl, -, hx⟩ := gather_eq_error_iff.mp hg
    obtain ⟨y, hy⟩ := h x (List.mem_append_right front List.mem_cons_self)
    exact absurd (hx.symm.trans hy) (by simp)

theorem mapM_eq_gather : xs.mapM f = gather (fun _ => false) f xs := by
  induction xs with
  | nil => rfl
  | cons x xs ih =>
    rw [List.mapM_cons, ih]
    cases hx : f x with
    | error e => rw [gather_cons_of_error hx]; rfl
    | ok y =>
      rw [gather_cons_of_open hx rfl]
      cases gather (fun _ => false) f xs <;> rfl

theorem mem_gather_of_mem {ys : List β} (h : gather (fun _ => false) f xs = .ok ys) {x : α} (hx : x ∈ xs) {y : β}
    (hy : f x = .ok y) : y ∈ ys := by
  induction xs generalizing ys with
  | nil => exact absurd hx List.not_mem_nil
  | cons a xs ih =>
    cases ha : f a with
    | error e =>
      rw [gather_cons_of_error ha] at h
      exact absurd h (by simp)
    | ok z =>
      rw [gather_cons_of_open ha rfl] at h
      obtain ⟨zs, hzs, rfl⟩ := map_eq_ok_iff.mp h
      rcases List.mem_cons.mp hx with rfl | hm
      · rw [ha, Except.ok.injEq] at hy
        exact hy ▸ List.mem_cons_self
      · exact List.mem_cons_of_mem z (ih hzs hm)

theorem gather_map_of_open {γ : Type} {k : γ → α} {g : γ → β} {rs : List γ} (h : ∀ r ∈ rs, f (k r) = .ok (g r)) :
    gather (fun _ => false) f (rs.map k) = .ok (rs.map g) := by
  induction rs with
  | nil => rfl
  | cons r rs ih =>
    obtain ⟨hr, hrs⟩ := List.forall_mem_cons.mp h
    rw [List.map_cons, gather_cons_of_open hr rfl, ih hrs]
    rfl

theorem exists_gather_map (settles : β → Bool) {γ : Type} {k : γ → α} {g : γ → β} {rs : List γ}
    (h : ∀ r ∈ rs, f (k r) = .ok (g r)) :
    ∃ ys, gather settles f (rs.map k) = .ok ys ∧ ys.find? settles = (rs.map g).find? settles := by
  induction rs with
  | nil => exact ⟨[], rfl, rfl⟩
  | cons r rs ih =>
    obtain ⟨hr, hrs⟩ := List.forall_mem_cons.mp h
    cases hs : settles (g r) with
    | true =>
      refine ⟨[g r], gather_cons_of_settled hr hs, ?_⟩
      rw [List.map_cons, List.find?_cons, List.find?_cons, hs]
    | false =>
      obtain ⟨ys, hys, hfind⟩ := ih hrs
      refine ⟨g r :: ys, ?_, ?_⟩
      · rw [List.map_cons, gather_cons_of_open hr hs, hys]
        rfl
      · rw [List.map_cons, List.find?_cons, List.find?_cons, hs, hfind]

/-- Only the last thing that is gathered may settle a search. -/
theorem getLast?_filter_of_gather {ys : List β} (h : gather settles f xs = .ok ys) :
    (ys.filter settles).getLast? = ys.find? settles := by
  induction xs generalizing ys with
  | nil =>
    obtain rfl := Except.ok.inj h
    rfl
  | cons x xs ih =>
    cases hx : f x with
    | error e =>
      rw [gather_cons_of_error hx] at h
      exact absurd h (by simp)
    | ok y =>
      cases hs : settles y with
      | true =>
        rw [gather_cons_of_settled hx hs, Except.ok.injEq] at h
        rw [← h, List.filter_singleton, hs, List.find?_cons, hs]
        rfl
      | false =>
        rw [gather_cons_of_open hx hs] at h
        obtain ⟨zs, hzs, rfl⟩ := map_eq_ok_iff.mp h
        rw [List.filter_cons_of_neg (by simp [hs]), List.find?_cons, hs, ih hzs]

theorem mapError_gather_cons {ε : Type} (g : Fault → ε) (x : α) :
    (gather settles f (x :: xs)).mapError g = (f x).mapError g >>= fun y =>
      if settles y then .ok [y] else ((gather settles f xs).mapError g).map (y :: ·) := by
  cases hx : f x with
  | error e =>
    rw [gather_cons_of_error hx]
    rfl
  | ok y =>
    cases hs : settles y with
    | true =>
      rw [gather_cons_of_settled hx hs]
      simp only [Except.mapError, bind, Except.bind, hs, if_true]
    | false =>
      rw [gather_cons_of_open hx hs]
      simp only [Except.mapError, bind, Except.bind, hs, Bool.false_eq_true, if_false]
      cases gather settles f xs <;> rfl

theorem mapError_find?_gather_cons {ε : Type} (g : Fault → ε) (x : α) :
    ((gather settles f (x :: xs)).map (List.find? settles)).mapError g = (f x).mapError g >>= fun y =>
      if settles y then .ok (some y) else ((gather settles f xs).map (List.find? settles)).mapError g := by
  cases hx : f x with
  | error e =>
    rw [gather_cons_of_error hx]
    rfl
  | ok y =>
    cases hs : settles y with
    | true =>
      rw [gather_cons_of_settled hx hs]
      simp only [Except.map, Except.mapError, List.find?_cons, bind, Except.bind, hs, if_true]
    | false =>
      rw [gather_cons_of_open hx hs]
      simp only [Except.mapError, bind, Except.bind, hs, Bool.false_eq_true, if_false]
      cases gather settles f xs with
      | error e => rfl
      | ok ys => simp only [Except.map, List.find?_cons, hs]

theorem mapError_eq_ok_iff {ε : Type} {g : Fault → ε} {x : Except Fault α} {a : α} :
    x.mapError g = .ok a ↔ x = .ok a := by
  cases x <;> simp [Except.mapError]

end Fault

inductive Question where
  | last
  | justBefore (t : Instant)
  | between (start finish : Instant)
  | ofType (eventType : Value) (start finish : Option Instant)
  | all

namespace Question

def HasUtc : Question → Prop
  | last | all => True
  | justBefore t => t.HasUtc
  | between start finish => start.HasUtc ∧ finish.HasUtc
  | ofType _ start finish => (∀ t, start = some t → t.HasUtc) ∧ ∀ t, finish = some t → t.HasUtc

/-- The ends of the range that a question is about; it needs both of them. -/
def range? : Question → Option (Instant × Instant)
  | between start finish => some (start, finish)
  | ofType _ (some start) (some finish) => some (start, finish)
  | _ => none

theorem HasUtc.range {q : Question} (h : q.HasUtc) {start finish : Instant} (hr : q.range? = some (start, finish)) :
    start.HasUtc ∧ finish.HasUtc := by
  cases q with
  | last | justBefore _ | all => exact absurd hr (by simp [range?])
  | between a b =>
    obtain ⟨rfl, rfl⟩ := Prod.mk.inj (Option.some.inj hr)
    exact h
  | ofType eventType a b =>
    cases a with
    | none => exact absurd hr (by simp [range?])
    | some a =>
      cases b with
      | none => exact absurd hr (by simp [range?])
      | some b =>
        obtain ⟨rfl, rfl⟩ := Prod.mk.inj (Option.some.inj hr)
        exact ⟨h.1 a rfl, h.2 b rfl⟩

def inRange (q : Question) (es : List Entry) : List Entry :=
  match q.range? with
  | some (start, finish) => Ordered.inRange start finish es
  | none => es

/-- The answer to a question among entries in their order. -/
def pick : Question → List Entry → List Entry
  | last, es => es.getLast?.toList
  | justBefore t, es => (Ordered.earlier t es).getLast?.toList
  | ofType eventType start finish, es =>
    ((ofType eventType start finish).inRange es).filter fun e => e.eventType.same eventType
  | q, es => q.inRange es

private theorem mem_of_mem_inRange {q : Question} {es : List Entry} {e : Entry} (h : e ∈ q.inRange es) : e ∈ es := by
  rw [inRange] at h
  split at h
  · exact List.mem_of_mem_filter h
  · exact h

theorem mem_of_mem_pick {q : Question} {es : List Entry} {e : Entry} (h : e ∈ q.pick es) : e ∈ es := by
  cases q with
  | last => exact List.mem_of_getLast? (Option.mem_toList.mp h)
  | justBefore t => exact List.mem_of_mem_filter (List.mem_of_getLast? (Option.mem_toList.mp h))
  | between start finish => exact mem_of_mem_inRange (q := between start finish) h
  | ofType eventType start finish => exact mem_of_mem_inRange (List.mem_of_mem_filter h)
  | all => exact h

end Question

namespace Store

variable {W : Type}

def ask (s : Store W) : Question → Op W (List Entry)
  | .last => fun w => ((s.findLast w).1.map Option.toList, (s.findLast w).2)
  | .justBefore t => fun w => ((s.findJustBefore t w).1.map Option.toList, (s.findJustBefore t w).2)
  | .between start finish => s.findBetween start finish
  | .ofType eventType start finish => s.findByEventType eventType start finish
  | .all => s.all

theorem ask_ofType (s : Store W) (eventType : Value) (start finish : Option Instant) (w : W) :
    let found := match (Question.ofType eventType start finish).range? with
      | some (a, b) => s.findBetween a b w
      | none => s.all w
    s.ask (.ofType eventType start finish) w =
      (found.1.map fun es => es.filter fun e => e.eventType.same eventType, found.2) := by
  cases start with
  | none => rfl
  | some a => cases finish <;> rfl

/-- A store that answers from entries picks its answers among them. -/
theorem Answers.ask {s : Store W} {w : W} {es : List Entry} (h : s.Answers w es) {q : Question} (hq : q.HasUtc) :
    s.ask q w = (.ok (q.pick es), w) := by
  cases q with
  | last =>
    simp only [Store.ask, h.findLast]
    rfl
  | justBefore t =>
    simp only [Store.ask, h.findJustBefore t hq]
    rfl
  | between start finish => exact h.findBetween start finish hq.1 hq.2
  | ofType eventType start finish =>
    rw [ask_ofType, Question.pick, Question.inRange]
    cases hr : (Question.ofType eventType start finish).range? with
    | none =>
      simp only [h.all]
      rfl
    | some ends =>
      obtain ⟨hstart, hfinish⟩ := hq.range hr
      simp only [h.findBetween ends.1 ends.2 hstart hfinish]
      rfl
  | all => exact h.all

end Store

/-- Whatever a log is asked for that refuses all reads, it fails in the same way. -/
theorem FileLog.Refuses.ask {path : Text} {w : Files} {f : Fault} (h : Refuses path w f) (q : Question) :
    (store path).ask q w = (.error f, w) := by
  cases q with
  | last =>
    simp only [Store.ask, h.findLast]
    rfl
  | justBefore t =>
    simp only [Store.ask, h.findJustBefore t]
    rfl
  | between start finish => exact h.findBetween start finish
  | ofType eventType start finish =>
    rw [Store.ask_ofType]
    cases (Question.ofType eventType start finish).range? with
    | none =>
      simp only [h.all]
      rfl
    | some ends =>
      simp only [h.findBetween ends.1 ends.2]
      rfl
  | all => exact h.all

end AuditTrail
