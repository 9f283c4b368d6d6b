import AuditTrail.Proofs.Appender.Refusals
import AuditTrail.Proofs.Appender.Steps

/-!
# A closed appender

Calls of an appender that was closed are turned away and change nothing, while its writer still finishes what waits for
it, and for ever after. The exception are requests whose details have no canonical text: they are examined before the
appender is, and each of them still fails a ticket, which is counted and reported (`Session.closed_run`).
-/

namespace AuditTrail

namespace Move

variable {S : Type}

/-- What can still happen to an appender that was closed: calls of its producers, and steps of its writer. -/
def isLate : Move S → Bool
  | .start | .submit _ | .close _ _ | .work _ => true
  | _ => false

def isWork : Move S → Bool
  | .work _ => true
  | _ => false

/-- A request with details outside the JSON values, and the fault that says so. -/
def refusal? : Move S → Option (Request × Fault)
  | .submit r =>
    match Canonical.encode r.details with
    | .ok _ => none
    | .error (.encoding why) => some (r, .encoding why)
    | .error _ => none
  | _ => none

end Move

namespace Appender

variable {W : Type} {store : Store W} {a : Appender} {s : Scene W}

def IsAtRest (a : Appender) : Prop := a.admitted = none ∧ (a.stopped = true ∨ a.queue = [])

private theorem IsAtRest.work (h : a.IsAtRest) (held : Bool) (n : Nat) (s : Scene W) :
    Appender.work store held n a s = (a, s) := by
  have hdone : (a.stopped || a.queue.isEmpty) = true := by
    rw [Bool.or_eq_true, List.isEmpty_iff]
    exact h.2
  cases n with
  | zero => rfl
  | succ n => rw [Appender.work, h.1]; exact if_pos hdone

private theorem failAdmitted_frame (f : Fault) (p : Admitted) (a : Appender) (s : Scene W) :
    (failAdmitted f p a s).1.closed = a.closed ∧ (failAdmitted f p a s).1.queue = a.queue ∧
      (failAdmitted f p a s).1.admitted = none := by
  rw [failAdmitted]
  split
  · exact ⟨rfl, rfl, rfl⟩
  · exact ⟨rfl, rfl, rfl⟩

/-- The writer takes one item from the queue, and opens or closes nothing. -/
private theorem takeNext_frame (store : Store W) (a : Appender) (s : Scene W) :
    (takeNext store a s).1.closed = a.closed ∧ (takeNext store a s).1.queue = a.queue.tail := by
  cases hq : a.queue with
  | nil =>
    rw [takeNext, hq]
    exact ⟨rfl, hq⟩
  | cons item rest =>
    cases item with
    | stop =>
      rw [takeNext_stop hq]
      exact ⟨rfl, rfl⟩
    | request ticket r =>
      by_cases hc : a.outcomes[ticket]? = some .cancelled
      · rw [takeNext_cancelled hq hc]
        exact ⟨rfl, rfl⟩
      · cases ht : a.tip with
        | some t =>
          rw [takeNext_of_tip hq hc ht]
          exact ⟨rfl, rfl⟩
        | none =>
          rcases @takeNext_of_no_tip W store a ticket r rest hq hc ht s with ⟨f, w, -, he⟩ | ⟨last, w, -, he⟩
          · rw [he]
            obtain ⟨hclosed, hqueue, -⟩ := failAdmitted_frame f ⟨ticket, r, .null, s.watch.metrics.running⟩
              (a.holding ticket rest) { s with world := w }
            exact ⟨hclosed, hqueue⟩
          · rw [he]
            exact ⟨rfl, rfl⟩

private theorem commit_frame (store : Store W) (p : Admitted) (a : Appender) (s : Scene W) :
    (commit store p a s).1.closed = a.closed ∧ (commit store p a s).1.queue = a.queue ∧
      (commit store p a s).1.admitted = none := by
  rcases commit_cases store p a s with ⟨f, s', he, -⟩ | ⟨reading, hash, d, e, s', -, -, he⟩
  · rw [he]
    exact failAdmitted_frame f p a s'
  · rw [he]
    exact ⟨rfl, rfl, rfl⟩

private theorem closed_work (n : Nat) (h : a.closed = true) : (work store false n a s).1.closed = true :=
  work_induction (P := fun a _ => a.closed = true) (fun a s h => (takeNext_frame store a s).1.trans h)
    (fun p a s _ h => (commit_frame store p a s).1.trans h) n h

private theorem isAtRest_work (n : Nat) (h : a.toil ≤ n) : (work store false n a s).1.IsAtRest := by
  induction n generalizing a s with
  | zero =>
    obtain ⟨hqueue, hadmitted⟩ := IsIdle.of_toil (Nat.eq_zero_of_le_zero h)
    exact ⟨hadmitted, .inr hqueue⟩
  | succ n ih =>
    rw [toil] at h
    rw [work]
    cases ha : a.admitted with
    | some p =>
      obtain ⟨-, hqueue, hadmitted⟩ := commit_frame store p a s
      rw [ha, Option.toList_some, List.length_singleton] at h
      have hless : toil (commit store p a s).1 ≤ n := by
        rw [toil, hqueue, hadmitted]
        exact Nat.le_of_succ_le_succ h
      exact ih hless
    | none =>
      by_cases hdone : (a.stopped || a.queue.isEmpty) = true
      · rw [if_pos hdone]
        rw [Bool.or_eq_true, List.isEmpty_iff] at hdone
        exact ⟨ha, hdone⟩
      · rw [if_neg hdone]
        rw [Bool.or_eq_true, List.isEmpty_iff, not_or] at hdone
        have hone : ((takeNext store a s).1.admitted.toList).length ≤ 1 := by
          cases (takeNext store a s).1.admitted <;> simp
        have hpos := List.length_pos_iff.mpr hdone.2
        have hless : toil (takeNext store a s).1 ≤ n := by
          rw [toil, (takeNext_frame store a s).2, List.length_tail]
          omega
        exact ih hless

end Appender

namespace Session

open Appender

variable {W S : Type} (store : Store W) (strike : S → W → W) {s : Session W}

/-- A call is turned away: it changes nothing, and it fails as a closed appender fails, or only closes it again. -/
def TurnsAway (s : Session W) : Move S → Prop
  | .start => Appender.start store (s.appender, s.scene) = (.error .closed, s.appender, s.scene)
  | .submit r => Appender.submit r (s.appender, s.scene) = (.error .closed, s.appender, s.scene)
  | .close held timeout => Appender.close store held timeout (s.appender, s.scene) = (.ok (), s.appender, s.scene)
  | _ => True

/-- A closed appender turns a call away unless the call has details without a canonical text. -/
private theorem turnsAway_iff (hc : s.appender.closed = true) (m : Move S) :
    s.TurnsAway store m ↔ ∀ r, m = .submit r → ∃ t, Canonical.encode r.details = .ok t := by
  cases m with
  | start => exact ⟨fun _ _ h => absurd h (by simp), fun _ => start_of_closed hc⟩
  | close held timeout => exact ⟨fun _ _ h => absurd h (by simp), fun _ => close_of_closed hc⟩
  | submit r =>
    constructor
    · rintro h _ ⟨⟩
      cases hd : Canonical.encode r.details with
      | ok t => exact ⟨t, rfl⟩
      | error f =>
        have hfirst := congrArg Prod.fst (show submit r (s.appender, s.scene) = _ from h)
        rw [submit, Canonical.toJson, hd] at hfirst
        rcases Canonical.encode_eq_error r.details f hd with ⟨why, rfl⟩ | ⟨rfl, -⟩
        · simp only [Except.map] at hfirst
          split at hfirst
          · exact absurd hfirst (by simp [Fault.oversized])
          · exact absurd hfirst (by simp)
        · exact absurd hfirst (by simp [Except.map, Fault.oversized])
    · intro h
      obtain ⟨t, ht⟩ := h r rfl
      have hjson : Canonical.toJson r.details = .ok (Canonical.listed r.details) := by
        rw [Canonical.toJson, ht]
        rfl
      exact submit_of_closed hc hjson
  | cancel _ | work _ | outage _ | replace _ => exact ⟨fun _ _ h => absurd h (by simp), fun _ => trivial⟩

private theorem step_of_turnsAway {m : Move S} (hm : m.isLate = true) (hw : m.isWork = false)
    (h : s.TurnsAway store m) :
    step store strike m s = s := by
  cases m with
  | start => rw [step, after, show Appender.start store (s.appender, s.scene) = _ from h]
  | submit r => rw [step, after, show Appender.submit r (s.appender, s.scene) = _ from h]
  | close held timeout => rw [step, after, show Appender.close store held timeout (s.appender, s.scene) = _ from h]
  | work n => exact absurd hw (by simp [Move.isWork])
  | cancel _ | outage _ | replace _ => exact absurd hm (by simp [Move.isLate])

private theorem closed_step (hc : s.appender.closed = true) {m : Move S} (hm : m.isLate = true) :
    (step store strike m s).appender.closed = true := by
  cases m with
  | start =>
    rw [step, after, start_of_closed hc]
    exact hc
  | submit r =>
    rw [step, after]
    rcases submit_cases r s.appender s.scene with ⟨q, -, ho, -⟩ | he | ⟨f, he⟩
    · exact absurd (hc.symm.trans ho) (by simp)
    · rw [he]
      exact hc
    · rw [he]
      exact hc
  | close held timeout =>
    rw [step, after, close_of_closed hc]
    exact hc
  | work n => exact closed_work n hc
  | cancel _ | outage _ | replace _ => exact absurd hm (by simp [Move.isLate])

private theorem closed_run_of_late {moves : List (Move S)} (hm : ∀ m ∈ moves, m.isLate = true)
    (hc : s.appender.closed = true) :
    (run store strike moves s).appender.closed = true := by
  induction moves generalizing s with
  | nil => exact hc
  | cons m rest ih =>
    obtain ⟨hfirst, hrest⟩ := List.forall_mem_cons.mp hm
    exact ih hrest (closed_step store strike hc hfirst)

/-- If all calls are turned away, only the writer's steps are left of a run. -/
private theorem run_eq_run_work {moves : List (Move S)} (hm : ∀ m ∈ moves, m.isLate = true)
    (hc : s.appender.closed = true) (hd : ∀ r, .submit r ∈ moves → ∃ t, Canonical.encode r.details = .ok t) :
    run store strike moves s = run store strike (moves.filter Move.isWork) s := by
  induction moves generalizing s with
  | nil => rfl
  | cons m rest ih =>
    obtain ⟨hfirst, hrest⟩ := List.forall_mem_cons.mp hm
    have hgo := ih (s := step store strike m s) hrest (closed_step store strike hc hfirst) fun r hr =>
      hd r (List.mem_cons_of_mem m hr)
    cases hw : m.isWork with
    | true =>
      rw [List.filter_cons_of_pos hw]
      exact hgo
    | false =>
      have haway := (turnsAway_iff store hc m).mpr fun r hr => hd r (hr ▸ List.mem_cons_self)
      rw [List.filter_cons_of_neg (by simp [hw])]
      rw [step_of_turnsAway store strike hfirst hw haway] at hgo
      show run store strike rest (step store strike m s) = _
      rw [step_of_turnsAway store strike hfirst hw haway, hgo]

def refuse (s : Session W) (p : Request × Fault) : Session W :=
  ⟨{ s.appender with outcomes := s.appender.outcomes ++ [.failed p.2] },
    { s.scene with watch := reportFailure p.2 p.1 s.scene.watch }⟩

private theorem step_of_isAtRest (hc : s.appender.closed = true) (hr : s.appender.IsAtRest) {m : Move S}
    (hm : m.isLate = true)
    (ht : ∀ r, m = .submit r → r.eventType.isText = true) : step store strike m s = m.refusal?.toList.foldl refuse s := by
  by_cases hd : ∀ r, m = .submit r → ∃ t, Canonical.encode r.details = .ok t
  · have hnone : m.refusal? = none := by
      cases m with
      | submit r =>
        obtain ⟨t, hd⟩ := hd r rfl
        rw [Move.refusal?, hd]
      | _ => rfl
    rw [hnone]
    cases hw : m.isWork with
    | false => exact step_of_turnsAway store strike hm hw ((turnsAway_iff store hc m).mpr hd)
    | true =>
      cases m with
      | work n =>
        rw [step, hr.work]
        rfl
      | _ => exact absurd hw (by simp [Move.isWork])
  · simp only [not_forall, not_exists, exists_prop] at hd
    obtain ⟨r, rfl, hd⟩ := hd
    cases he : Canonical.encode r.details with
    | ok t => exact absurd he (hd t)
    | error f =>
      rcases Canonical.encode_eq_error r.details f he with ⟨why, rfl⟩ | ⟨rfl, -⟩
      · rw [step, after, submit_of_unencodable (ht r rfl) s.appender s.scene he (by simp [Fault.oversized]),
          Move.refusal?, he]
        rfl
      · rw [step, after, submit_of_oversized s.appender s.scene he, Move.refusal?, he]
        rfl

private theorem run_of_isAtRest {moves : List (Move S)} (hm : ∀ m ∈ moves, m.isLate = true)
    (hc : s.appender.closed = true)
    (hr : s.appender.IsAtRest) (ht : ∀ r, .submit r ∈ moves → r.eventType.isText = true) :
    run store strike moves s = (moves.filterMap Move.refusal?).foldl refuse s := by
  induction moves generalizing s with
  | nil => rfl
  | cons m rest ih =>
    obtain ⟨hfirst, hrest⟩ := List.forall_mem_cons.mp hm
    have hstep := step_of_isAtRest store strike hc hr hfirst fun r he =>
      ht r (he ▸ List.mem_cons_self)
    have hnext : (step store strike m s).appender.IsAtRest := by
      rw [hstep]
      cases m.refusal? with
      | none => exact hr
      | some p => exact hr
    have hgo := ih (s := step store strike m s) hrest (closed_step store strike hc hfirst) hnext fun r hs =>
      ht r (List.mem_cons_of_mem m hs)
    show run store strike rest (step store strike m s) = _
    rw [hgo, hstep]
    cases hp : m.refusal? with
    | none => rw [List.filterMap_cons_none hp]; rfl
    | some p => rw [List.filterMap_cons_some hp]; rfl

private theorem foldl_refuse (ps : List (Request × Fault)) (s : Session W) :
    let s' := ps.foldl refuse s
    s'.scene.world = s.scene.world ∧ s'.scene.clock = s.scene.clock ∧
      s'.appender = { s.appender with outcomes := s.appender.outcomes ++ ps.map fun p => .failed p.2 } ∧
      (s.scene.watch.figures.IsAttentive →
        s'.scene.watch.figures = ps.foldl (fun x p => x.book p.1 (.failed p.2)) s.scene.watch.figures) := by
  induction ps generalizing s with
  | nil => exact ⟨rfl, rfl, by simp, fun _ => rfl⟩
  | cons p ps ih =>
    obtain ⟨hworld, hclock, happender, hfigures⟩ := ih (s.refuse p)
    refine ⟨hworld, hclock, ?_, fun h => ?_⟩
    · rw [List.foldl_cons, happender, refuse, List.map_cons, ← List.append_cons]
    · have hreport := figures_reportFailure h p.2 p.1
      rw [List.foldl_cons, List.foldl_cons, hfigures (hreport ▸ h.book)]
      exact congrArg (ps.foldl fun x p => x.book p.1 (.failed p.2)) hreport

/-- Producers go on calling an appender that was closed, in whatever state it is. All their calls are turned away, at
whatever point of the run they come, if and only if the details of all their requests have canonical texts; and then
the run is that of the writer alone, which comes to rest. At rest nothing changes any more, but that each request with
details outside the JSON values still fails a new ticket, and that each of these is counted and reported. -/
theorem closed_run (hc : s.appender.closed = true) {moves : List (Move S)} (hm : ∀ m ∈ moves, m.isLate = true)
    (ht : ∀ r, .submit r ∈ moves → r.eventType.isText = true) :
    ((∀ front m behind, moves = front ++ m :: behind → (run store strike front s).TurnsAway store m) ↔
      ∀ r, .submit r ∈ moves → ∃ t, Canonical.encode r.details = .ok t) ∧
    ((∀ r, .submit r ∈ moves → ∃ t, Canonical.encode r.details = .ok t) →
      run store strike moves s = run store strike (moves.filter Move.isWork) s) ∧
    (∀ n, s.appender.toil ≤ n → (run store strike [.work n] s).appender.IsAtRest) ∧
    (s.appender.IsAtRest →
      let s' := run store strike moves s
      let refused := moves.filterMap Move.refusal?
      s'.scene.world = s.scene.world ∧ s'.scene.clock = s.scene.clock ∧
        s'.appender = { s.appender with outcomes := s.appender.outcomes ++ refused.map fun p => .failed p.2 } ∧
        (s.scene.watch.figures.IsAttentive →
          s'.scene.watch.figures = refused.foldl (fun x p => x.book p.1 (.failed p.2)) s.scene.watch.figures) ∧
        (refused = [] → s' = s)) := by
  have hclosed : ∀ {front m behind}, moves = front ++ m :: behind → (run store strike front s).appender.closed = true :=
    fun he => closed_run_of_late store strike (fun m hf => hm m (he ▸ List.mem_append_left _ hf)) hc
  refine ⟨⟨fun h r hr => ?_, fun h front m behind he => ?_⟩, run_eq_run_work store strike hm hc,
    fun n hn => isAtRest_work n hn, ?_⟩
  · obtain ⟨front, behind, he⟩ := List.append_of_mem hr
    exact (turnsAway_iff store (hclosed he) _).mp (h front _ behind he) r rfl
  · refine (turnsAway_iff store (hclosed he) m).mpr fun r hr => h r ?_
    rw [he, hr]
    exact List.mem_append_right front List.mem_cons_self
  · intro hr s' refused
    have hrun : s' = refused.foldl refuse s := run_of_isAtRest store strike hm hc hr ht
    obtain ⟨hworld, hclock, happender, hfigures⟩ := foldl_refuse refused s
    refine ⟨hrun ▸ hworld, hrun ▸ hclock, hrun ▸ happender, hrun ▸ hfigures, fun hnone => ?_⟩
    rw [hrun, hnone]
    rfl

/-- An appender was started and closed. Calls that come later change nothing, but for one with an object for its
details: it fails a ticket, which is counted and reported. -/
theorem closed_run_of_object :
    let r : Request := ⟨.text (lit "e"), .text (lit "m"), .list [], .null⟩
    let odd : Request := { r with details := .object (lit "set") }
    let watch : Watch := { Watch.ofEmitter (.ofListeners [.archive]) false with
      metrics := { Metrics.off with running := true } }
    let s : Session Memory := run Memory.store Memory.strike [.start, .close false none] (fresh default default watch)
    let calls : List (Move (List Fault)) := [.submit r, .start, .close false none, .work 3, .submit odd]
    let s' := run Memory.store Memory.strike calls s
    s.appender.closed = true ∧ s'.scene.world = s.scene.world ∧ s'.appender.queue = s.appender.queue ∧
      s'.appender.outcomes.length = s.appender.outcomes.length + 1 ∧
      s'.scene.watch.metrics.failures.total (lit "e") = 1 ∧ s'.scene.watch.notices.length = 1 := by
  intro r odd watch s calls s'
  have hlate : ∀ m ∈ calls, m.isLate = true := by simp [calls, Move.isLate]
  have htext : ∀ q, .submit q ∈ calls → q.eventType.isText = true := by
    intro q hq
    obtain rfl | rfl : q = r ∨ q = odd := by simpa [calls] using hq
    · rfl
    · rfl
  have hs : s.appender = ⟨some (.text genesisHash), none, [], none, [], true, true, true⟩ ∧
      s.scene.watch.figures = watch.figures := ⟨by with_unfolding_all rfl, by with_unfolding_all rfl⟩
  have hclosed : s.appender.closed = true := by rw [hs.1]
  have hrest : s.appender.IsAtRest := by
    rw [hs.1]
    exact ⟨rfl, .inl rfl⟩
  have hattentive : s.scene.watch.figures.IsAttentive := by
    rw [hs.2]
    exact ⟨rfl, Emitter.records_ofListeners fun _ => rfl⟩
  obtain ⟨-, -, -, h⟩ := closed_run Memory.store Memory.strike (s := s) hclosed hlate htext
  obtain ⟨hworld, -, happender, hfigures, -⟩ := h hrest
  have hrefused : calls.filterMap Move.refusal? = [(odd, .encoding (.unsupported (lit "set")))] := rfl
  rw [hrefused] at happender hfigures
  have hbooked := hfigures hattentive
  rw [hs.2] at hbooked
  refine ⟨hclosed, hworld, by rw [happender], ?_, ?_, ?_⟩
  · rw [happender]
    exact List.length_append
  · exact congrArg (fun x => x.failures.total (lit "e")) hbooked
  · exact congrArg (fun x => x.notices.length) hbooked

end Session

end AuditTrail
