import AuditTrail.Proofs.Appender.Journal

/-!
# Callers and the writer

Any number of callers append to one appender, start it and close it, while its writer works and callers withdraw what
they have queued. A call goes in stages: it waits for the lock of the appender's state, and then looks whether the
appender is closed, looks whether the writer was started, starts it, queues and lets go of the lock one after the other.
The writer takes an item from the queue, looks whether it was withdrawn, and commits it. An act is one stage of one
caller or of the writer, and acts come in any order; an act that has to wait changes nothing (`Crew.step`). A call that
nobody comes between does what the appender does (`Crew.append_alone`, `Crew.close_alone`, `Crew.start_alone`), and so
does the writer (`Desk.look_take`).
-/

namespace AuditTrail

private theorem Appender.with_queue {a : Appender} {items : List Item} (h : a.queue = items) :
    { a with queue := items } = a := by
  rw [← h]

/-- An appender in its scene, the request that its writer has taken and not looked at yet, and what has happened. -/
structure Desk (W : Type) where
  appender : Appender
  scene : Scene W
  hand : Option (Nat × Request)
  journal : Journal

namespace Desk

variable {W : Type}

def fresh (w : W) (clock : Clock) (watch : Watch) : Desk W := ⟨.fresh, ⟨w, clock, watch⟩, none, []⟩

def hasRoom (limit : Option Nat) (d : Desk W) : Bool := limit.all (d.appender.queue.length < ·)

def refuse (r : Request) (d : Desk W) : Except Fault Nat × Desk W :=
  let out := Appender.submit r (d.appender, d.scene)
  (out.1, { d with appender := out.2.1, scene := out.2.2 })

def hire (d : Desk W) : Desk W :=
  { d with appender := { d.appender with started := true }, journal := d.journal ++ [.hired] }

/-- Loads the tip and starts the writer, unless it was started before or the appender is closed. -/
def launch (store : Store W) (d : Desk W) : Except Fault Unit × Desk W :=
  let out := Appender.start store (d.appender, d.scene)
  let hired := if d.appender.closed || d.appender.started then [] else [.hired]
  (out.1, { d with appender := out.2.1, scene := out.2.2, journal := d.journal ++ hired })

def enqueue (r : Request) (d : Desk W) : Desk W :=
  let ticket := d.appender.outcomes.length
  { d with
    appender := { d.appender with
      outcomes := d.appender.outcomes ++ [.pending]
      queue := d.appender.queue ++ [.request ticket r] }
    journal := d.journal ++ [.queued ticket r] }

def shut (d : Desk W) : Desk W :=
  { d with appender := { d.appender with closed := true }, journal := d.journal ++ [.closed] }

def mark (d : Desk W) : Desk W :=
  { d with appender := { d.appender with queue := d.appender.queue ++ [.stop] } }

def cancel (ticket : Nat) (d : Desk W) : Desk W := { d with appender := (d.appender.cancel ticket).2 }

/-- The writer takes the next item: it stops at a stop mark, and keeps a request in its hand. A writer that was not
started, has stopped or is at a request takes nothing. -/
def take (d : Desk W) : Desk W :=
  if d.hand.isSome || d.appender.admitted.isSome || d.appender.stopped || !d.appender.started then d
  else
    match d.appender.queue with
    | [] => d
    | .stop :: rest => { d with appender := { d.appender with queue := rest, stopped := true } }
    | .request ticket r :: rest =>
      { d with
        appender := { d.appender with queue := rest }
        hand := some (ticket, r)
        journal := d.journal ++ [.taken ticket] }

def held (d : Desk W) : List Item := (d.hand.map fun h => Item.request h.1 h.2).toList

/-- The appender with the request in the writer's hand put back at the front of its queue. -/
def whole (d : Desk W) : Appender := { d.appender with queue := d.held ++ d.appender.queue }

def verdict (ticket : Nat) (a : Appender) : Journal := (a.outcomes[ticket]?.map (.ended ticket)).toList

/-- What becomes of a ticket that the writer looks at. -/
def admission (ticket : Nat) (before after : Appender) : Journal :=
  match before.outcomes[ticket]? with
  | some .cancelled => verdict ticket after
  | _ => .running ticket :: if after.admitted.isSome then [] else verdict ticket after

/-- The writer looks at the request in its hand: it drops it if it was withdrawn, and else resolves the tip for it. -/
def look (store : Store W) (d : Desk W) : Desk W :=
  match d.hand with
  | none => d
  | some (ticket, _) =>
    let out := Appender.takeNext store d.whole d.scene
    ⟨out.1, out.2, none, d.journal ++ admission ticket d.appender out.1⟩

def commit (store : Store W) (d : Desk W) : Desk W :=
  match d.appender.admitted with
  | none => d
  | some p =>
    let out := Appender.commit store p d.appender d.scene
    { d with appender := out.1, scene := out.2, journal := d.journal ++ verdict p.ticket out.1 }

def strikeWith (strike : W → W) (d : Desk W) : Desk W :=
  { d with scene := { d.scene with world := strike d.scene.world } }

structure IsFree (d : Desk W) : Prop where
  hand : d.hand = none
  admitted : d.appender.admitted = none
  stopped : d.appender.stopped = false
  started : d.appender.started = true

/-- What the writer takes: nothing, the stop mark or a request. -/
inductive Taken (d : Desk W) : Desk W → Prop
  | nothing (h : d.IsFree → d.appender.queue = []) : Taken d d
  | stop {rest : List Item} (hf : d.IsFree) (hq : d.appender.queue = .stop :: rest) :
      Taken d { d with appender := { d.appender with queue := rest, stopped := true } }
  | request {n : Nat} {r : Request} {rest : List Item} (hf : d.IsFree) (hq : d.appender.queue = .request n r :: rest) :
      Taken d { d with
        appender := { d.appender with queue := rest }
        hand := some (n, r)
        journal := d.journal ++ [.taken n] }

theorem taken_take (d : Desk W) : Taken d d.take := by
  rw [take]
  split
  · rename_i hbusy
    refine .nothing ?_
    rintro ⟨hh, ha, hs, hw⟩
    simp [hh, ha, hs, hw] at hbusy
  · rename_i hfree
    have hf : d.IsFree := by
      simp only [Bool.or_eq_true, Bool.not_eq_true', not_or, Bool.not_eq_true, Bool.not_eq_false,
        Option.isSome_eq_false_iff, Option.isNone_iff_eq_none] at hfree
      obtain ⟨⟨⟨hh, ha⟩, hs⟩, hw⟩ := hfree
      exact ⟨hh, ha, hs, hw⟩
    split
    · exact .nothing fun _ => ‹_›
    · exact .stop hf ‹_›
    · exact .request hf ‹_›

theorem whole_of_hand {d : Desk W} (h : d.hand = none) : d.whole = d.appender := by
  rw [whole, held, h]
  rfl

/-- A writer that takes an item and looks at it at once takes it as an appender does. -/
theorem look_take (store : Store W) {d : Desk W} (h : d.IsFree) :
    let out := Appender.takeNext store d.appender d.scene
    (d.take.look store).appender = out.1 ∧ (d.take.look store).scene = out.2 := by
  have htaken := d.taken_take
  generalize d.take = d' at htaken ⊢
  cases htaken with
  | nothing hq =>
    rw [look, h.hand, Appender.takeNext, hq h]
    exact ⟨rfl, rfl⟩
  | stop _ hq =>
    rw [look, Appender.takeNext_stop hq]
    dsimp only
    rw [h.hand]
    exact ⟨rfl, rfl⟩
  | @request n r rest _ hq =>
    have hwhole : whole { d with
        appender := { d.appender with queue := rest }
        hand := some (n, r)
        journal := d.journal ++ [.taken n] } = d.appender := Appender.with_queue hq
    rw [look]
    dsimp only
    rw [hwhole]
    exact ⟨rfl, rfl⟩

end Desk

/-- A call that needs the lock. -/
inductive Errand where
  | append (r : Request)
  | close
  | start

/-- How far a caller is. -/
inductive Stage where
  | waits (e : Errand)
  | entered (e : Errand)
  /-- The appender is open. -/
  | cleared (r : Request)
  /-- The appender is open and has no writer. -/
  | hiring (r : Request)
  /-- The appender is open and has a writer. -/
  | staffed (r : Request)
  /-- The appender was closed, and the stop mark is to be queued. -/
  | closing
  | leaving (e : Errand) (answer : Except Fault (Option Nat))
  | gone (e : Errand) (answer : Except Fault (Option Nat))

/-- A caller in such a stage holds the lock. -/
def Stage.isInside : Stage → Bool
  | waits _ | gone _ _ => false
  | _ => true

/-- Callers around an appender, one of whom may hold the lock of its state. -/
structure Crew (W : Type) where
  desk : Desk W
  callers : List Stage
  holder : Option Nat

namespace Crew

/-- What can happen next, where the store suffers outages of a type `S`. -/
inductive Act (S : Type) where
  | call (e : Errand)
  | advance (caller : Nat)
  | cancel (ticket : Nat)
  | outage (o : S)
  | take
  | look
  | commit

variable {W S : Type}

def fresh (w : W) (clock : Clock) (watch : Watch) : Crew W := ⟨.fresh w clock watch, [], none⟩

/-- A caller comes to a stage, and leaves the desk behind. -/
def pass (caller : Nat) (st : Stage) (desk : Desk W) (c : Crew W) : Crew W :=
  { c with desk := desk, callers := c.callers.set caller st }

/-- A further caller. Details that have no canonical text are found before anything is locked. -/
def call (e : Errand) (c : Crew W) : Crew W :=
  match e with
  | .append r =>
    match r.accepted with
    | some q => { c with callers := c.callers ++ [.waits (.append q)] }
    | none =>
      let out := c.desk.refuse r
      { c with desk := out.2, callers := c.callers ++ [.gone (.append r) (out.1.map some)] }
  | e => { c with callers := c.callers ++ [.waits e] }

/-- A caller that has the lock goes on with its errand. -/
def proceed (store : Store W) (limit : Option Nat) (caller : Nat) (c : Crew W) : Stage → Crew W
  | .entered (.append r) =>
    c.pass caller (if c.desk.appender.closed then .leaving (.append r) (.error .closed) else .cleared r) c.desk
  | .cleared r => c.pass caller (if c.desk.appender.started then .staffed r else .hiring r) c.desk
  | .hiring r => c.pass caller (.staffed r) c.desk.hire
  | .staffed r =>
    if c.desk.hasRoom limit then
      c.pass caller (.leaving (.append r) (.ok (some c.desk.appender.outcomes.length))) (c.desk.enqueue r)
    else c
  | .entered .close =>
    if c.desk.appender.closed then c.pass caller (.leaving .close (.ok none)) c.desk
    else c.pass caller (if c.desk.appender.started then .closing else .leaving .close (.ok none)) c.desk.shut
  | .closing => if c.desk.hasRoom limit then c.pass caller (.leaving .close (.ok none)) c.desk.mark else c
  | .entered .start =>
    let out := c.desk.launch store
    c.pass caller (.leaving .start (out.1.map fun _ => none)) out.2
  | .leaving e answer => { c.pass caller (.gone e answer) c.desk with holder := none }
  | .waits _ | .gone _ _ => c

/-- A caller goes on: one that waits takes the lock if nobody holds it. -/
def advance (store : Store W) (limit : Option Nat) (caller : Nat) (c : Crew W) : Crew W :=
  match c.callers[caller]? with
  | some (.waits e) => if c.holder.isNone then { c.pass caller (.entered e) c.desk with holder := some caller } else c
  | some st => c.proceed store limit caller st
  | none => c

def step (store : Store W) (strike : S → W → W) (limit : Option Nat) : Act S → Crew W → Crew W
  | .call e, c => c.call e
  | .advance caller, c => c.advance store limit caller
  | .cancel ticket, c => { c with desk := c.desk.cancel ticket }
  | .outage o, c => { c with desk := c.desk.strikeWith (strike o) }
  | .take, c => { c with desk := c.desk.take }
  | .look, c => { c with desk := c.desk.look store }
  | .commit, c => { c with desk := c.desk.commit store }

def run (store : Store W) (strike : S → W → W) (limit : Option Nat) (acts : List (Act S)) (c : Crew W) : Crew W :=
  acts.foldl (fun c a => step store strike limit a c) c

section Alone

variable {store : Store W} {strike : S → W → W} {limit : Option Nat} {d : Desk W} {cs : List Stage}

/-- A further caller goes as many stages as it can, and nobody comes between. -/
def alone (store : Store W) (strike : S → W → W) (limit : Option Nat) (e : Errand) (c : Crew W) : Crew W :=
  run store strike limit (.call e :: List.replicate 6 (.advance c.callers.length)) c

private theorem advance_waits (e : Errand) :
    advance store limit cs.length ⟨d, cs ++ [.waits e], none⟩ = ⟨d, cs ++ [.entered e], some cs.length⟩ := by
  simp [advance, pass]

private theorem advance_last {st : Stage} {holder : Option Nat} (h : ∀ e, st ≠ .waits e) :
    advance store limit cs.length ⟨d, cs ++ [st], holder⟩ =
      proceed store limit cs.length ⟨d, cs ++ [st], holder⟩ st := by
  rw [advance, List.getElem?_concat_length]
  cases st with
  | waits e => exact absurd rfl (h e)
  | _ => rfl

private theorem pass_last (st st' : Stage) (d' : Desk W) (holder : Option Nat) :
    pass cs.length st' d' ⟨d, cs ++ [st], holder⟩ = ⟨d', cs ++ [st'], holder⟩ := by
  simp [pass]

/-- A call to append that nobody comes between does what the appender does, if there is room in the queue. -/
theorem append_alone (r : Request) (h : d.hasRoom limit = true) :
    let out := Appender.submit r (d.appender, d.scene)
    let c := alone store strike limit (.append r) ⟨d, cs, none⟩
    c.desk.appender = out.2.1 ∧ c.desk.scene = out.2.2 ∧ c.holder = none ∧
      ∃ q, c.callers = cs ++ [.gone (.append q) (out.1.map some)] := by
  intro out c
  cases hr : r.accepted with
  | none =>
    have hc : c = ⟨(d.refuse r).2, cs ++ [.gone (.append r) (out.1.map some)], none⟩ := by
      simp [c, out, alone, run, List.replicate, step, call, hr, advance_last, proceed, Desk.refuse]
    rw [hc]
    exact ⟨rfl, rfl, rfl, r, rfl⟩
  | some q =>
    obtain ⟨details, hd, rfl⟩ : ∃ details, Canonical.toJson r.details = .ok details ∧ { r with details := details } = q := by
      rw [Request.accepted] at hr
      cases hd : Canonical.toJson r.details with
      | error f => simp [hd] at hr
      | ok details => exact ⟨details, rfl, by simpa [hd] using hr⟩
    by_cases hclosed : d.appender.closed = true
    · have hc : c = ⟨d, cs ++ [.gone (.append { r with details := details }) (.error .closed)], none⟩ := by
        simp [c, alone, run, List.replicate, step, call, hr, advance_waits, advance_last, proceed, pass_last, hclosed]
      have hout : out = (.error .closed, d.appender, d.scene) := Appender.submit_of_closed hclosed hd
      rw [hc, hout]
      exact ⟨rfl, rfl, rfl, _, rfl⟩
    · rw [Bool.not_eq_true] at hclosed
      have hout := Appender.submit_of_accepted hr hclosed d.scene
      have hticket := (Appender.submit_of_open (s := d.scene) hclosed hd).1
      cases hstarted : d.appender.started with
      | true =>
        have hc : c = ⟨d.enqueue { r with details := details },
            cs ++ [.gone (.append { r with details := details }) (.ok (some d.appender.outcomes.length))], none⟩ := by
          simp [c, alone, run, List.replicate, step, call, hr, advance_waits, advance_last, proceed, pass_last, hclosed,
            hstarted, h]
        rw [hc, hout, hticket]
        refine ⟨?_, rfl, rfl, _, rfl⟩
        rw [← hstarted]
        rfl
      | false =>
        have hroom : d.hire.hasRoom limit = true := h
        have hc : c = ⟨d.hire.enqueue { r with details := details },
            cs ++ [.gone (.append { r with details := details }) (.ok (some d.appender.outcomes.length))], none⟩ := by
          simp [c, alone, run, List.replicate, step, call, hr, advance_waits, advance_last, proceed, pass_last, hclosed,
            hstarted, hroom]
          rfl
        rw [hc, hout, hticket]
        exact ⟨rfl, rfl, rfl, _, rfl⟩

/-- A call to close that nobody comes between closes the appender, and the stop mark is queued if there is a writer and
room in the queue. -/
theorem close_alone (h : d.hasRoom limit = true) :
    let a := d.appender
    let c := alone store strike limit .close ⟨d, cs, none⟩
    c.desk.appender = { a with
        closed := true
        queue := if a.closed || !a.started then a.queue else a.queue ++ [.stop] } ∧
      c.desk.scene = d.scene ∧ c.holder = none ∧ c.callers = cs ++ [.gone .close (.ok none)] := by
  intro a c
  by_cases hclosed : d.appender.closed = true
  · have hc : c = ⟨d, cs ++ [.gone .close (.ok none)], none⟩ := by
      simp [c, alone, run, List.replicate, step, call, advance_waits, advance_last, proceed, pass_last, hclosed]
    rw [hc, if_pos (by simp [a, hclosed])]
    refine ⟨?_, rfl, rfl, rfl⟩
    rw [← hclosed]
  · rw [Bool.not_eq_true] at hclosed
    by_cases hstarted : d.appender.started = true
    · have hroom : d.shut.hasRoom limit = true := h
      have hc : c = ⟨d.shut.mark, cs ++ [.gone .close (.ok none)], none⟩ := by
        simp [c, alone, run, List.replicate, step, call, advance_waits, advance_last, proceed, pass_last, hclosed, hstarted,
          hroom]
      rw [hc, if_neg (by simp [a, hclosed, hstarted])]
      exact ⟨rfl, rfl, rfl, rfl⟩
    · rw [Bool.not_eq_true] at hstarted
      have hc : c = ⟨d.shut, cs ++ [.gone .close (.ok none)], none⟩ := by
        simp [c, alone, run, List.replicate, step, call, advance_waits, advance_last, proceed, pass_last, hclosed, hstarted]
      rw [hc, if_pos (by simp [a, hstarted])]
      exact ⟨rfl, rfl, rfl, rfl⟩

/-- A call to start that nobody comes between does what the appender does. -/
theorem start_alone :
    let out := Appender.start store (d.appender, d.scene)
    let c := alone store strike limit .start ⟨d, cs, none⟩
    c.desk.appender = out.2.1 ∧ c.desk.scene = out.2.2 ∧ c.holder = none ∧
      c.callers = cs ++ [.gone .start (out.1.map fun _ => none)] := by
  intro out c
  have hc : c = ⟨(d.launch store).2, cs ++ [.gone .start (out.1.map fun _ => none)], none⟩ := by
    simp [c, out, alone, run, List.replicate, step, call, advance_waits, advance_last, proceed, pass_last, Desk.launch]
  rw [hc]
  exact ⟨rfl, rfl, rfl, rfl⟩

end Alone

end Crew

end AuditTrail
