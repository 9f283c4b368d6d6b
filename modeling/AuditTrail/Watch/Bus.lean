import AuditTrail.Text

/-!
# The event bus

Handlers subscribe to topics and are called in the order of their subscriptions. An emission calls
the handlers that were subscribed when it began, whatever these do meanwhile; a handler that fails
is noted and does not keep the others from being called. Handlers may subscribe, unsubscribe and
emit themselves; emissions inside emissions go down to a given depth.

A subscription is seen on its own topic and on no other (`handlers_subscribe_self`,
`handlers_subscribe_of_ne`).
-/

namespace AuditTrail

inductive Effect (H : Type) where
  | fail
  | subscribe (topic : Text) (handler : H)
  | unsubscribe (topic : Text) (handler : H)
  | emit (topic : Text)

/-- Subscriptions in the order in which they were made. -/
structure Bus (H : Type) where
  subscriptions : List (Text × H)

/-- What an emission leaves behind: the calls, the topics of the calls that failed, and the bus. -/
structure Delivery (H E : Type) where
  calls : List (H × E)
  failures : List Text
  bus : Bus H

namespace Bus

variable {H E : Type} [DecidableEq H]

def empty : Bus H := ⟨[]⟩

def handlers (topic : Text) (b : Bus H) : List H :=
  (b.subscriptions.filter fun s => s.1 == topic).map (·.2)

def subscribe (topic : Text) (h : H) (b : Bus H) : Bus H := ⟨b.subscriptions ++ [(topic, h)]⟩

/-- Takes back the oldest subscription of a handler to a topic, if there is one. -/
def unsubscribe (topic : Text) (h : H) (b : Bus H) : Bus H := ⟨b.subscriptions.erase (topic, h)⟩

omit [DecidableEq H] in
theorem handlers_subscribe_self (topic : Text) (h : H) (b : Bus H) :
    (b.subscribe topic h).handlers topic = b.handlers topic ++ [h] := by
  simp [handlers, subscribe]

omit [DecidableEq H] in
theorem handlers_subscribe_of_ne {topic other : Text} (ne : other ≠ topic) (h : H) (b : Bus H) :
    (b.subscribe other h).handlers topic = b.handlers topic := by
  simp [handlers, subscribe, ne]

theorem handlers_unsubscribe_self (topic : Text) (h : H) (b : Bus H) :
    (b.unsubscribe topic h).handlers topic = (b.handlers topic).erase h := by
  obtain ⟨subs⟩ := b
  rw [unsubscribe]
  induction subs with
  | nil => rfl
  | cons s rest ih =>
    obtain ⟨t, g⟩ := s
    simp only [handlers] at ih ⊢
    by_cases ht : t = topic
    · by_cases hg : g = h
      · subst ht
        subst hg
        simp
      · have hne : ¬(t, g) = (topic, h) := fun e => hg (Prod.mk.inj e).2
        rw [List.erase_cons_tail (by simpa using hne), List.filter_cons_of_pos (by simp [ht]),
          List.filter_cons_of_pos (by simp [ht]), List.map_cons, List.map_cons, ih,
          List.erase_cons_tail (by simpa using hg)]
    · have hne : ¬(t, g) = (topic, h) := fun e => ht (Prod.mk.inj e).1
      rw [List.erase_cons_tail (by simpa using hne), List.filter_cons_of_neg (by simp [ht]),
        List.filter_cons_of_neg (by simp [ht]), ih]

theorem handlers_unsubscribe_of_ne {topic other : Text} (ne : other ≠ topic) (h : H) (b : Bus H) :
    (b.unsubscribe other h).handlers topic = b.handlers topic := by
  obtain ⟨subs⟩ := b
  rw [unsubscribe]
  induction subs with
  | nil => rfl
  | cons s rest ih =>
    simp only [handlers] at ih ⊢
    by_cases hs : s = (other, h)
    · rw [hs, List.erase_cons_head, List.filter_cons_of_neg (by simp [ne])]
    · rw [List.erase_cons_tail (by simpa using hs), List.filter_cons, List.filter_cons]
      by_cases ht : (s.1 == topic) = true
      · rw [if_pos ht, if_pos ht, List.map_cons, List.map_cons, ih]
      · rw [if_neg ht, if_neg ht, ih]

/-- Runs what a handler does, up to a failure of its own; tells whether it failed. -/
def perform (nested : Text → Bus H → Delivery H E) : List (Effect H) → Bus H → Bool × Delivery H E
  | [], b => (false, ⟨[], [], b⟩)
  | .fail :: _, b => (true, ⟨[], [], b⟩)
  | .subscribe topic h :: rest, b => perform nested rest (b.subscribe topic h)
  | .unsubscribe topic h :: rest, b => perform nested rest (b.unsubscribe topic h)
  | .emit topic :: rest, b =>
    let inner := nested topic b
    let (failed, after) := perform nested rest inner.bus
    (failed, ⟨inner.calls ++ after.calls, inner.failures ++ after.failures, after.bus⟩)

def deliver (behaviour : H → List (Effect H)) (nested : Text → Bus H → Delivery H E) (topic : Text)
    (event : E) : List H → Bus H → Delivery H E
  | [], b => ⟨[], [], b⟩
  | h :: hs, b =>
    let (failed, own) := perform nested (behaviour h) b
    let after := deliver behaviour nested topic event hs own.bus
    ⟨(h, event) :: own.calls ++ after.calls,
      own.failures ++ (if failed then [topic] else []) ++ after.failures, after.bus⟩

/-- Emits an event on a topic, with emissions inside it to a given depth. -/
def emit (behaviour : H → List (Effect H)) (event : E) : Nat → Text → Bus H → Delivery H E
  | 0, _, b => ⟨[], [], b⟩
  | depth + 1, topic, b =>
    deliver behaviour (emit behaviour event depth) topic event (b.handlers topic) b

def depthLimit : Nat := 1000

end Bus

end AuditTrail
