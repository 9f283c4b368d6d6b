import AuditTrail.Proofs.Appender.Tickets

/-!
# What a watch shows

The counts of appends and of failures and the recorded notices are the figures of a watch. If the metrics are set up and
the emitter records every notice, what becomes of a request is booked there once: a stored request is one more append of
its event type, and a failed one is one more failure of its event type and one more notice, of its fault and its source
(`Appender.figures_reportStored`, `Appender.figures_reportFailure`).
-/

namespace AuditTrail

theorem Value.isSome_display?_of_isText {v : Value} (h : v.isText = true) : v.display?.isSome = true := by
  obtain ⟨t, rfl⟩ := exists_of_isText h
  rfl

namespace Bus

variable {H E : Type} [DecidableEq H]

private theorem deliver_of_passive {behaviour : H → List (Effect H)} {nested : Text → Bus H → Delivery H E}
    {topic : Text} {event : E} {b : Bus H} (hs : List H) (h : ∀ g ∈ hs, behaviour g = [] ∨ behaviour g = [.fail]) :
    ∃ failures, deliver behaviour nested topic event hs b = ⟨hs.map fun g => (g, event), failures, b⟩ := by
  induction hs with
  | nil => exact ⟨[], rfl⟩
  | cons g rest ih =>
    obtain ⟨failures, he⟩ := ih fun g' hg => h g' (List.mem_cons_of_mem g hg)
    rcases h g List.mem_cons_self with hg | hg
    all_goals
      rw [deliver, hg, perform]
      simp only [he]
      exact ⟨_, rfl⟩

end Bus

namespace Emitter

/-- Every notice is taken and recorded once. -/
def Records (e : Emitter) : Prop :=
  ∀ (n : Notice) (w : Watch), w.emitter = e →
    ∃ log, w.emit n = (true, { w with log := log, notices := w.notices ++ [n] })

private theorem exists_bus_ofListeners (ls : List Listener) :
    ∃ b : Bus Listener, ofListeners ls = .bus b ∧ ∀ n : Notice, b.handlers n.topic = ls := by
  have hne : Notice.writeFailedTopic ≠ Notice.chainBrokenTopic := by decide
  refine ⟨_, rfl, fun n => ?_⟩
  cases n with
  | writeFailed => simp [Bus.handlers, Notice.topic, List.filter_map, Function.comp_def, hne.symm]
  | chainBroken => simp [Bus.handlers, Notice.topic, List.filter_map, Function.comp_def, hne]

/-- Listeners of which one takes each notice record it, however many others fail. -/
theorem records_ofListeners {ls : List Listener} (h : ∀ n, ls.countP (Listener.takes n) = 1) :
    (ofListeners ls).Records := by
  intro n w hw
  obtain ⟨b, hb, hhandlers⟩ := exists_bus_ofListeners ls
  have hpassive : ∀ l ∈ ls, Listener.behaviour n l = [] ∨ Listener.behaviour n l = [.fail] := by
    intro l _
    rw [Listener.behaviour]
    split
    · exact .inl rfl
    · exact .inr rfl
  have hdelivered : ∃ failures, b.emit (Listener.behaviour n) n Bus.depthLimit n.topic =
      ⟨ls.map fun l => (l, n), failures, b⟩ := by
    rw [show Bus.depthLimit = 999 + 1 from rfl, Bus.emit, hhandlers]
    exact Bus.deliver_of_passive ls hpassive
  obtain ⟨failures, hd⟩ := hdelivered
  have hrecorded : (((ls.map fun l => (l, n)).filter fun c => c.1.takes c.2).map (·.2)) = [n] := by
    rw [List.filter_map, List.map_map, Function.comp_def, Function.comp_def, List.map_const',
      ← List.countP_eq_length_filter, h n]
    rfl
  refine ⟨w.log ++ failures.map Watch.handlerFailed, ?_⟩
  rw [Watch.emit, hw, hb]
  simp only [hd, hrecorded]

end Emitter

namespace Counts

def total (label : Text) (c : Counts) : Nat := (c.get? label).getD 0

theorem total_increment (label other : Text) (c : Counts) :
    total label (increment other c) = total label c + if other = label then 1 else 0 := by
  rw [total, total]
  split
  · rename_i he
    rw [he, get?_increment_self]
    rfl
  · rename_i hne
    rw [get?_increment_of_ne hne]
    rfl

end Counts

namespace Outcome

def isStored : Outcome → Bool
  | .stored _ => true
  | _ => false

def isFailed : Outcome → Bool
  | .failed _ => true
  | _ => false

/-- The notice of a request that has come to an outcome, if there is one. -/
def notice? (r : Request) : Outcome → Option Notice
  | .failed f => some (.writeFailed f.message r.eventType r.source)
  | _ => none

end Outcome

/-- What is counted and recorded, and by what. -/
structure Figures where
  running : Bool
  emitter : Emitter
  appends : Counts
  failures : Counts
  notices : List Notice

def Watch.figures (w : Watch) : Figures :=
  ⟨w.metrics.running, w.emitter, w.metrics.appends, w.metrics.failures, w.notices⟩

namespace Figures

/-- Appends are counted, and every notice is recorded. -/
structure IsAttentive (x : Figures) : Prop where
  running : x.running = true
  records : x.emitter.Records

def book (r : Request) (o : Outcome) (x : Figures) : Figures :=
  { x with
    appends := if o.isStored then x.appends.increment (Appender.label r) else x.appends
    failures := if o.isFailed then x.failures.increment (Appender.label r) else x.failures
    notices := x.notices ++ (o.notice? r).toList }

variable {x : Figures} {r : Request} {o : Outcome}

theorem IsAttentive.book (h : x.IsAttentive) : (x.book r o).IsAttentive := ⟨h.running, h.records⟩

/-- Nothing is booked but what was stored or has failed. -/
theorem book_of_unsettled (hs : o.isStored = false) (hf : o.isFailed = false) : x.book r o = x := by
  have hn : o.notice? r = none := by
    cases o with
    | failed f => exact absurd hf (by simp [Outcome.isFailed])
    | _ => rfl
  rw [Figures.book, hs, hf, hn]
  simp

end Figures

namespace Appender

variable {w : Watch}

theorem figures_add (line : LogLine) (w : Watch) : (w.add line).figures = w.figures := rfl

theorem figures_countAppendDuration (timed : Bool) (w : Watch) :
    (w.count (·.countAppendDuration timed)).figures = w.figures := by
  rw [Watch.count, Metrics.countAppendDuration]
  split
  · rfl
  · rfl

private theorem figures_notify (h : w.figures.IsAttentive) (channel : Channel) (refusal : Text) (n : Notice) :
    (w.notify channel refusal n).figures = { w.figures with notices := w.notices ++ [n] } := by
  obtain ⟨log, he⟩ := h.records n w rfl
  rw [Watch.notify, he]
  rfl

/-- A failure is counted by its event type, and its notice is recorded. -/
theorem figures_reportFailure (h : w.figures.IsAttentive) (f : Fault) (r : Request) :
    (reportFailure f r w).figures = w.figures.book r (.failed f) := by
  have hv : ((w.count (·.countFailure (label r))).add (failedLine f r)).figures =
      { w.figures with failures := w.metrics.failures.increment (label r) } := by
    rw [figures_add, Watch.count, Metrics.countFailure, show w.metrics.running = true from h.running]
    simp [Watch.figures, show w.metrics.running = true from h.running]
  rw [reportFailure]
  generalize (w.count (·.countFailure (label r))).add (failedLine f r) = v at hv ⊢
  rw [figures_notify (hv ▸ ⟨h.running, h.records⟩), show v.notices = w.notices from congrArg Figures.notices hv, hv]
  rfl

/-- A stored request is counted by its event type. -/
theorem figures_reportStored (h : w.figures.IsAttentive) (e : Entry) (p : Admitted) :
    (reportStored e p w).figures = w.figures.book p.request (.stored e) := by
  have hd := figures_countAppendDuration p.timed (w.add (storedLine e p.request))
  rw [reportStored]
  generalize (w.add (storedLine e p.request)).count (·.countAppendDuration p.timed) = v at hd ⊢
  rw [figures_add] at hd
  have hv : v.metrics.running = true := (congrArg Figures.running hd).trans h.running
  have hs : (v.count (·.countAppend (label p.request))).figures = v.figures.book p.request (.stored e) := by
    rw [Watch.count, Metrics.countAppend, hv, Figures.book]
    simp [Watch.figures, Outcome.isStored, Outcome.isFailed, Outcome.notice?, hv]
  rw [hs, hd]

end Appender

end AuditTrail
