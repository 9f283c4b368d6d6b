import AuditTrail.Watch.Watch
import Mathlib.Data.List.Induction

/-!
# Emissions

What happens on a bus is told by scripts: a party subscribes, unsubscribes and emits until it returns or raises, and each
handler that an emission calls has a script of its own, which may differ from call to call. Whatever the scripts are,
every emission, on whatever level, calls those handlers whose subscriptions are in force when it begins, in their order,
and goes on to its end (`Bus.emissions_reach_subscribers`). The emissions of handlers with a fixed behaviour are of this
kind (`Script.emit_eq_play`).
-/

namespace AuditTrail

inductive BusChange (H : Type) where
  | subscribe (topic : Text) (handler : H)
  | unsubscribe (topic : Text) (handler : H)

/-- What a party does on a bus, and what each handler does that is called meanwhile: for an emission it is told by the
number of the call. -/
inductive Script (H E : Type) where
  | returns
  | raises
  | subscribe (topic : Text) (handler : H) (rest : Script H E)
  | unsubscribe (topic : Text) (handler : H) (rest : Script H E)
  | emit (topic : Text) (event : E) (react : Nat → H → Script H E) (rest : Script H E)

mutual

/-- What a party did, in its order. -/
inductive Notes (H E : Type) where
  | nil
  | subscribed (topic : Text) (handler : H) (rest : Notes H E)
  | unsubscribed (topic : Text) (handler : H) (rest : Notes H E)
  | emitted (topic : Text) (event : E) (calls : Calls H E) (rest : Notes H E)

/-- The calls of an emission, in their order, with what the handlers did and whether they failed. -/
inductive Calls (H E : Type) where
  | nil
  | called (handler : H) (event : E) (within : Notes H E) (failed : Bool) (rest : Calls H E)

end

variable {H E : Type}

mutual

/-- The changes of the subscriptions, by whomever they were made. -/
def Notes.changes : Notes H E → List (BusChange H)
  | .nil => []
  | .subscribed topic h rest => .subscribe topic h :: rest.changes
  | .unsubscribed topic h rest => .unsubscribe topic h :: rest.changes
  | .emitted _ _ calls rest => calls.changes ++ rest.changes

def Calls.changes : Calls H E → List (BusChange H)
  | .nil => []
  | .called _ _ within _ rest => within.changes ++ rest.changes

end

mutual

def Notes.calls : Notes H E → List (H × E)
  | .nil => []
  | .subscribed _ _ rest => rest.calls
  | .unsubscribed _ _ rest => rest.calls
  | .emitted _ _ calls rest => calls.all ++ rest.calls

def Calls.all : Calls H E → List (H × E)
  | .nil => []
  | .called h event within _ rest => (h, event) :: within.calls ++ rest.all

end

mutual

/-- The topics of the calls that failed, in the order in which they ended. -/
def Notes.failures : Notes H E → List Text
  | .nil => []
  | .subscribed _ _ rest => rest.failures
  | .unsubscribed _ _ rest => rest.failures
  | .emitted topic _ calls rest => calls.failures topic ++ rest.failures

def Calls.failures (topic : Text) : Calls H E → List Text
  | .nil => []
  | .called _ _ within failed rest => within.failures ++ (if failed then [topic] else []) ++ rest.failures topic

end

/-- The calls of an emission without those inside them. -/
def Calls.direct : Calls H E → List (H × E)
  | .nil => []
  | .called h event _ _ rest => (h, event) :: rest.direct

mutual

/-- The notes are what a party did that followed its script, to its end, and it raised or not. -/
inductive Notes.Tells : Script H E → Bool → Notes H E → Prop
  | returns : Notes.Tells .returns false .nil
  | raises : Notes.Tells .raises true .nil
  | subscribe {topic : Text} {h : H} {s : Script H E} {raised : Bool} {notes : Notes H E}
      (rest : Notes.Tells s raised notes) : Notes.Tells (.subscribe topic h s) raised (.subscribed topic h notes)
  | unsubscribe {topic : Text} {h : H} {s : Script H E} {raised : Bool} {notes : Notes H E}
      (rest : Notes.Tells s raised notes) : Notes.Tells (.unsubscribe topic h s) raised (.unsubscribed topic h notes)
  | emit {topic : Text} {event : E} {react : Nat → H → Script H E} {s : Script H E} {raised : Bool} {calls : Calls H E}
      {notes : Notes H E} (inside : Calls.Tell react 0 calls) (rest : Notes.Tells s raised notes) :
      Notes.Tells (.emit topic event react s) raised (.emitted topic event calls notes)

/-- Each handler that was called followed its script, to its end, and it failed or not. -/
inductive Calls.Tell : (Nat → H → Script H E) → Nat → Calls H E → Prop
  | nil {react : Nat → H → Script H E} {n : Nat} : Calls.Tell react n .nil
  | called {react : Nat → H → Script H E} {n : Nat} {h : H} {event : E} {within : Notes H E} {failed : Bool}
      {others : Calls H E} (own : Notes.Tells (react n h) failed within) (rest : Calls.Tell react (n + 1) others) :
      Calls.Tell react n (.called h event within failed others)

end

variable [DecidableEq H]

/-- The handlers of a topic that are to be called after changes of the subscriptions: a subscription is behind all others
of its topic, and taking one back takes the oldest one of the handler to the topic. -/
def inForce (topic : Text) (changes : List (BusChange H)) : List H :=
  changes.foldl (fun hs change =>
    match change with
    | .subscribe t h => if t = topic then hs ++ [h] else hs
    | .unsubscribe t h => if t = topic then hs.erase h else hs) []

mutual

/-- Every emission has called, with its event, the handlers that were in force when it began, in their order. -/
def Notes.IsFaithful : Notes H E → List (BusChange H) → Prop
  | .nil, _ => True
  | .subscribed topic h rest, past => rest.IsFaithful (past ++ [.subscribe topic h])
  | .unsubscribed topic h rest, past => rest.IsFaithful (past ++ [.unsubscribe topic h])
  | .emitted topic event calls rest, past =>
    calls.direct = (inForce topic past).map (·, event) ∧ calls.AreFaithful past ∧
      rest.IsFaithful (past ++ calls.changes)

def Calls.AreFaithful : Calls H E → List (BusChange H) → Prop
  | .nil, _ => True
  | .called _ _ within _ rest, past => within.IsFaithful past ∧ rest.AreFaithful (past ++ within.changes)

end

/-- What a script leaves behind: the notes, whether it ended by raising, the topics that were logged, and the bus. -/
structure Course (H E : Type) where
  notes : Notes H E
  raised : Bool
  logged : List Text
  bus : Bus H

structure Round (H E : Type) where
  calls : Calls H E
  logged : List Text
  bus : Bus H

namespace Script

omit [DecidableEq H] in
/-- Calls handlers one after the other on the bus as it is then, and logs which of them failed. -/
def round (topic : Text) (event : E) (act : Nat → H → Bus H → Course H E) : Nat → List H → Bus H → Round H E
  | _, [], b => ⟨.nil, [], b⟩
  | n, h :: hs, b =>
    let own := act n h b
    let others := round topic event act (n + 1) hs own.bus
    ⟨.called h event own.notes own.raised others.calls,
      own.logged ++ (if own.raised then [topic] else []) ++ others.logged, others.bus⟩

/-- Follows a script on a bus. -/
def play : Script H E → Bus H → Course H E
  | .returns, b => ⟨.nil, false, [], b⟩
  | .raises, b => ⟨.nil, true, [], b⟩
  | .subscribe topic h rest, b =>
    let c := rest.play (b.subscribe topic h)
    { c with notes := .subscribed topic h c.notes }
  | .unsubscribe topic h rest, b =>
    let c := rest.play (b.unsubscribe topic h)
    { c with notes := .unsubscribed topic h c.notes }
  | .emit topic event react rest, b =>
    let r := round topic event (fun n h => (react n h).play) 0 (b.handlers topic) b
    let c := rest.play r.bus
    ⟨.emitted topic event r.calls c.notes, c.raised, r.logged ++ c.logged, c.bus⟩

end Script

section InForce

variable (topic : Text) (past : List (BusChange H))

@[simp] theorem inForce_subscribe (other : Text) (h : H) : inForce topic (past ++ [.subscribe other h]) =
    if other = topic then inForce topic past ++ [h] else inForce topic past := by
  rw [inForce, List.foldl_append]
  rfl

@[simp] theorem inForce_unsubscribe (other : Text) (h : H) : inForce topic (past ++ [.unsubscribe other h]) =
    if other = topic then (inForce topic past).erase h else inForce topic past := by
  rw [inForce, List.foldl_append]
  rfl

end InForce

namespace Bus

/-- The handlers of every topic are those in force after changes of the subscriptions. -/
def IsAfter (past : List (BusChange H)) (b : Bus H) : Prop := ∀ topic, b.handlers topic = inForce topic past

private theorem isAfter_empty : (empty : Bus H).IsAfter [] := fun _ => rfl

variable {b : Bus H} {past : List (BusChange H)}

private theorem IsAfter.subscribe (hb : b.IsAfter past) (topic : Text) (h : H) :
    (b.subscribe topic h).IsAfter (past ++ [.subscribe topic h]) := by
  intro other
  rw [inForce_subscribe]
  split
  · next he => rw [he, handlers_subscribe_self, hb other]
  · next hne => rw [handlers_subscribe_of_ne hne, hb other]

private theorem IsAfter.unsubscribe (hb : b.IsAfter past) (topic : Text) (h : H) :
    (b.unsubscribe topic h).IsAfter (past ++ [.unsubscribe topic h]) := by
  intro other
  rw [inForce_unsubscribe]
  split
  · next he => rw [he, handlers_unsubscribe_self, hb other]
  · next hne => rw [handlers_unsubscribe_of_ne hne, hb other]

private theorem isAfter_subscriptions (b : Bus H) : b.IsAfter (b.subscriptions.map fun s => .subscribe s.1 s.2) := by
  obtain ⟨subs⟩ := b
  induction subs using List.reverseRecOn with
  | nil => exact isAfter_empty
  | append_singleton subs s ih =>
    rw [List.map_append]
    exact ih.subscribe s.1 s.2

end Bus

/-- The course of a script behind given changes: its notes tell the script and are faithful, the bus is after all
changes, and each failed call was logged. -/
structure Course.IsOf (s : Script H E) (past : List (BusChange H)) (c : Course H E) : Prop where
  tells : Notes.Tells s c.raised c.notes
  faithful : c.notes.IsFaithful past
  bus : c.bus.IsAfter (past ++ c.notes.changes)
  logged : c.logged = c.notes.failures

/-- The calls of an emission to given handlers behind given changes. -/
structure Round.IsOf (topic : Text) (event : E) (react : Nat → H → Script H E) (n : Nat) (hs : List H)
    (past : List (BusChange H)) (r : Round H E) : Prop where
  tell : Calls.Tell react n r.calls
  direct : r.calls.direct = hs.map (·, event)
  faithful : r.calls.AreFaithful past
  bus : r.bus.IsAfter (past ++ r.calls.changes)
  logged : r.logged = r.calls.failures topic

namespace Script

private theorem isOf_round {topic : Text} {event : E} {act : Nat → H → Bus H → Course H E}
    {react : Nat → H → Script H E}
    (hact : ∀ n h {b : Bus H} {past}, b.IsAfter past → (act n h b).IsOf (react n h) past) (hs : List H) :
    ∀ {n : Nat} {b : Bus H} {past : List (BusChange H)}, b.IsAfter past →
      (round topic event act n hs b).IsOf topic event react n hs past := by
  induction hs with
  | nil =>
    intro n b past hb
    refine ⟨.nil, rfl, trivial, ?_, rfl⟩
    exact (List.append_nil past).symm ▸ hb
  | cons h hs ih =>
    intro n b past hb
    have hown := hact n h hb
    have hothers := ih (n := n + 1) hown.bus
    refine ⟨.called hown.tells hothers.tell, ?_, ⟨hown.faithful, hothers.faithful⟩, ?_, ?_⟩
    · exact congrArg ((h, event) :: ·) hothers.direct
    · exact List.append_assoc past _ _ ▸ hothers.bus
    · simp only [round, Calls.failures, hown.logged, hothers.logged]

/-- Whatever a script and those of the handlers are, on whatever level: the calls of each emission are those of the
handlers that were in force when it began. -/
private theorem isOf_play (s : Script H E) : ∀ {b : Bus H} {past : List (BusChange H)}, b.IsAfter past →
    (s.play b).IsOf s past := by
  induction s with
  | returns =>
    intro b past hb
    exact ⟨.returns, trivial, (List.append_nil past).symm ▸ hb, rfl⟩
  | raises =>
    intro b past hb
    exact ⟨.raises, trivial, (List.append_nil past).symm ▸ hb, rfl⟩
  | subscribe topic h rest ih =>
    intro b past hb
    have hrest := ih (hb.subscribe topic h)
    have hbus := hrest.bus
    rw [List.append_assoc] at hbus
    exact ⟨.subscribe hrest.tells, hrest.faithful, hbus, hrest.logged⟩
  | unsubscribe topic h rest ih =>
    intro b past hb
    have hrest := ih (hb.unsubscribe topic h)
    have hbus := hrest.bus
    rw [List.append_assoc] at hbus
    exact ⟨.unsubscribe hrest.tells, hrest.faithful, hbus, hrest.logged⟩
  | emit topic event react rest ihreact ih =>
    intro b past hb
    have hround : (round topic event (fun n h => (react n h).play) 0 (b.handlers topic) b).IsOf topic event react 0
        (b.handlers topic) past := isOf_round (fun n h _ _ hb => ihreact n h hb) (b.handlers topic) hb
    have hrest := ih hround.bus
    refine ⟨.emit hround.tell hrest.tells, ⟨?_, hround.faithful, hrest.faithful⟩, ?_, ?_⟩
    · rw [← hb topic]
      exact hround.direct
    · exact List.append_assoc past _ _ ▸ hrest.bus
    · simp only [play, Notes.failures, hround.logged, hrest.logged]

/-- The notes of a script are determined by it and by the changes before it. -/
def IsDetermined (s : Script H E) : Prop :=
  ∀ {past : List (BusChange H)} {notes notes' : Notes H E} {raised raised' : Bool}, notes.Tells s raised →
    notes.IsFaithful past → notes'.Tells s raised' → notes'.IsFaithful past → notes = notes' ∧ raised = raised'

/-- Calls of the same handlers are the same calls if what each handler does is determined. -/
private theorem calls_determined {react : Nat → H → Script H E} (hreact : ∀ n h, (react n h).IsDetermined)
    (hs : List (H × E)) :
    ∀ {n : Nat} {past : List (BusChange H)} {calls calls' : Calls H E}, calls.direct = hs → calls'.direct = hs →
      calls.Tell react n → calls.AreFaithful past → calls'.Tell react n → calls'.AreFaithful past → calls = calls' := by
  induction hs with
  | nil =>
    intro n past calls calls' hd hd' _ _ _ _
    cases calls with
    | called => exact absurd hd (by simp [Calls.direct])
    | nil =>
      cases calls' with
      | called => exact absurd hd' (by simp [Calls.direct])
      | nil => rfl
  | cons c hs ih =>
    intro n past calls calls' hd hd' ht hf ht' hf'
    cases ht with
    | nil => exact absurd hd (by simp [Calls.direct])
    | called own rest =>
      cases ht' with
      | nil => exact absurd hd' (by simp [Calls.direct])
      | called own' rest' =>
        obtain ⟨hfirst, hothers⟩ := List.cons.inj (hd.trans hd'.symm)
        obtain ⟨rfl, rfl⟩ := Prod.mk.inj hfirst
        obtain ⟨rfl, rfl⟩ := hreact _ _ own hf.1 own' hf'.1
        have hrest := (List.cons.inj hd).2
        rw [ih hrest (hothers ▸ hrest) rest hf.2 rest' hf'.2]

private theorem isDetermined (s : Script H E) : s.IsDetermined := by
  induction s with
  | returns =>
    intro past notes notes' raised raised' ht _ ht' _
    cases ht
    cases ht'
    exact ⟨rfl, rfl⟩
  | raises =>
    intro past notes notes' raised raised' ht _ ht' _
    cases ht
    cases ht'
    exact ⟨rfl, rfl⟩
  | subscribe topic h rest ih =>
    intro past notes notes' raised raised' ht hf ht' hf'
    cases ht with | subscribe hrest =>
    cases ht' with | subscribe hrest' =>
    obtain ⟨rfl, rfl⟩ := ih hrest hf hrest' hf'
    exact ⟨rfl, rfl⟩
  | unsubscribe topic h rest ih =>
    intro past notes notes' raised raised' ht hf ht' hf'
    cases ht with | unsubscribe hrest =>
    cases ht' with | unsubscribe hrest' =>
    obtain ⟨rfl, rfl⟩ := ih hrest hf hrest' hf'
    exact ⟨rfl, rfl⟩
  | emit topic event react rest ihreact ih =>
    intro past notes notes' raised raised' ht hf ht' hf'
    cases ht with | emit hinside hrest =>
    cases ht' with | emit hinside' hrest' =>
    obtain ⟨hdirect, hcalls, hf⟩ := hf
    obtain ⟨hdirect', hcalls', hf'⟩ := hf'
    obtain rfl := calls_determined ihreact _ hdirect hdirect' hinside hcalls hinside' hcalls'
    obtain ⟨rfl, rfl⟩ := ih hrest hf hrest' hf'
    exact ⟨rfl, rfl⟩

/-- The script of a handler whose effects are given; without a reaction to them, emissions are left out. -/
def ofEffects (event : E) (react? : Option (H → Script H E)) : List (Effect H) → Script H E
  | [] => .returns
  | .fail :: _ => .raises
  | .subscribe topic h :: rest => .subscribe topic h (ofEffects event react? rest)
  | .unsubscribe topic h :: rest => .unsubscribe topic h (ofEffects event react? rest)
  | .emit topic :: rest =>
    match react? with
    | some react => .emit topic event (fun _ h => react h) (ofEffects event react? rest)
    | none => ofEffects event react? rest

/-- The script of a handler with a given behaviour, with emissions to a given depth. -/
def ofBehaviour (behaviour : H → List (Effect H)) (event : E) : Nat → H → Script H E
  | 0, h => ofEffects event none (behaviour h)
  | depth + 1, h => ofEffects event (some (ofBehaviour behaviour event depth)) (behaviour h)

end Script

def Course.delivery (c : Course H E) : Delivery H E := ⟨c.notes.calls, c.logged, c.bus⟩

def Round.delivery (r : Round H E) : Delivery H E := ⟨r.calls.all, r.logged, r.bus⟩

namespace Script

/-- What an emission delivers by the reaction to it, and nothing without one. -/
def delivered (event : E) (react? : Option (H → Script H E)) (topic : Text) (b : Bus H) : Delivery H E :=
  match react? with
  | some react => ((emit topic event (fun _ => react) .returns).play b).delivery
  | none => ⟨[], [], b⟩

section Behaviour

variable {behaviour : H → List (Effect H)} {nested : Text → Bus H → Delivery H E} {event : E}
  {react? : Option (H → Script H E)}

/-- A handler does what its script says. -/
private theorem perform_eq_play (event : E) (react? : Option (H → Script H E)) (effects : List (Effect H)) :
    ∀ b, Bus.perform (delivered event react?) effects b =
      (((ofEffects event react? effects).play b).raised, ((ofEffects event react? effects).play b).delivery) := by
  induction effects with
  | nil => exact fun _ => rfl
  | cons effect rest ih =>
    intro b
    cases effect with
    | fail => rfl
    | subscribe topic h =>
      rw [Bus.perform, ih]
      rfl
    | unsubscribe topic h =>
      rw [Bus.perform, ih]
      rfl
    | emit topic =>
      simp only [Bus.perform, ih]
      cases react? with
      | none => rfl
      | some react => simp only [delivered, ofEffects, play, Course.delivery, Notes.calls, List.append_nil]

private theorem deliver_eq_round {act : H → Bus H → Course H E}
    (hact : ∀ h b, Bus.perform nested (behaviour h) b = ((act h b).raised, (act h b).delivery)) (topic : Text)
    (hs : List H) :
    ∀ n b, Bus.deliver behaviour nested topic event hs b = (round topic event (fun _ => act) n hs b).delivery := by
  induction hs with
  | nil => exact fun _ _ => rfl
  | cons h hs ih =>
    intro n b
    rw [Bus.deliver, hact]
    simp only [ih (n + 1), round, Round.delivery, Course.delivery, Calls.all]

private theorem emit_succ_eq_delivered {depth : Nat} (h : Bus.emit behaviour event depth = delivered event react?) :
    Bus.emit behaviour event (depth + 1) = delivered event (some fun g => ofEffects event react? (behaviour g)) := by
  funext topic b
  rw [Bus.emit, h, deliver_eq_round (fun g => perform_eq_play event react? (behaviour g)) topic (b.handlers topic) 0 b]
  simp only [delivered, play, Course.delivery, Round.delivery, Notes.calls, List.append_nil]

/-- An emission to handlers with a fixed behaviour is a script. -/
theorem emit_eq_play (behaviour : H → List (Effect H)) (event : E) (depth : Nat) (topic : Text) (b : Bus H) :
    Bus.emit behaviour event (depth + 1) topic b =
      ((emit topic event (fun _ => ofBehaviour behaviour event depth) .returns).play b).delivery := by
  have hemit : Bus.emit behaviour event (depth + 1) = delivered event (some (ofBehaviour behaviour event depth)) := by
    induction depth with
    | zero => exact emit_succ_eq_delivered rfl
    | succ depth ih => exact emit_succ_eq_delivered ih
  rw [hemit]
  rfl

end Behaviour

end Script

namespace Bus

/-- Whatever parties do on a bus, and handlers that are called meanwhile: each emission, on whatever level, calls the
handlers whose subscriptions are in force when it begins, in their order, and each of them does what its script says, to
its end, as does the party that emitted. This determines what happens. One topic is logged for each call that fails.
Taking back a subscription takes the oldest one, if there is one. The emissions of handlers with a fixed behaviour are of
this kind, and so are those of a watch, which takes every notice and logs an error for each call that fails. -/
theorem emissions_reach_subscribers :
    (∀ s : Script H E, let c := s.play Bus.empty
      (∀ notes raised, notes.Tells s raised ∧ notes.IsFaithful [] ↔ notes = c.notes ∧ raised = c.raised) ∧
      c.logged = c.notes.failures ∧ ∀ topic, c.bus.handlers topic = inForce topic c.notes.changes) ∧
    (∀ (b : Bus H) (topic : Text) (h : H),
      (∀ front back, b.subscriptions = front ++ (topic, h) :: back → (topic, h) ∉ front →
        (b.unsubscribe topic h).subscriptions = front ++ back) ∧
      ((topic, h) ∉ b.subscriptions → b.unsubscribe topic h = b)) ∧
    (∀ (behaviour : H → List (Effect H)) (event : E) (depth : Nat) (topic : Text) (b : Bus H),
      let c := (Script.emit topic event (fun _ => Script.ofBehaviour behaviour event depth) .returns).play b
      b.emit behaviour event (depth + 1) topic = ⟨c.notes.calls, c.logged, c.bus⟩) ∧
    ∀ (w : Watch) (b : Bus Listener) (n : Notice), w.emitter = .bus b →
      let react := Script.ofBehaviour (Listener.behaviour n) n (Bus.depthLimit - 1)
      let c := (Script.emit n.topic n (fun _ => react) .returns).play b
      (w.emit n).1 = true ∧ (w.emit n).2.log = w.log ++ c.notes.failures.map Watch.handlerFailed := by
  refine ⟨?_, ?_, fun behaviour event depth => Script.emit_eq_play behaviour event depth, ?_⟩
  · intro s c
    have hc : c.IsOf s [] := Script.isOf_play s isAfter_empty
    refine ⟨?_, hc.logged, hc.bus⟩
    intro notes raised
    constructor
    · exact fun ⟨ht, hf⟩ => s.isDetermined ht hf hc.tells hc.faithful
    · rintro ⟨rfl, rfl⟩
      exact ⟨hc.tells, hc.faithful⟩
  · intro b topic h
    constructor
    · intro front back hb hfront
      rw [unsubscribe, hb, List.erase_append_right _ hfront, List.erase_cons_head]
    · intro hno
      rw [unsubscribe, List.erase_of_not_mem hno]
  · intro w b n hw react c
    have hc := Script.isOf_play (.emit n.topic n (fun _ => react) .returns) b.isAfter_subscriptions
    have hemit := Script.emit_eq_play (Listener.behaviour n) n (depthLimit - 1) n.topic b
    rw [Nat.sub_add_cancel (by decide)] at hemit
    rw [Watch.emit, hw]
    refine ⟨rfl, ?_⟩
    simp only [hemit, Course.delivery]
    rw [← hc.logged]

/-- A handler takes back a subscription of the emission that calls it, emits on another topic and raises: the emission
goes on with those that it began with. -/
example :
    let react : Nat → Nat → Script Nat Unit := fun n _ =>
      if n = 0 then .unsubscribe (lit "a") 2 (.emit (lit "b") () (fun _ _ => .raises) .raises) else .returns
    let s : Script Nat Unit := .subscribe (lit "a") 1 (.subscribe (lit "b") 3 (.subscribe (lit "a") 2
      (.subscribe (lit "a") 1 (.emit (lit "a") () react .returns))))
    let c := s.play Bus.empty
    c.notes.calls.map Prod.fst = [1, 3, 2, 1] ∧ c.logged = [lit "b", lit "a"] ∧ c.bus.handlers (lit "a") = [1, 1] :=
  ⟨rfl, rfl, rfl⟩

end Bus

end AuditTrail
