import Ningshi.GateBpf

/-!
# `gate.bpf.c`: the health counters

Each anchor has a counter for the events it has emitted and one for the events
that found the ring buffer full.  `emit` returns nothing, so the first counter
goes up whether or not there was room (`accounted_of_metered`).
`counters_conserve_iff` says that the counters are right exactly after the runs
in which the ring buffer had room for every report.
-/

namespace Ningshi

open Transition

namespace Anchor

/-- How many of these events come from the anchor? -/
def count (a : Anchor) (events : List BpfEvent) : Nat := events.countP fun e => e.anchor = a

theorem emittedIdx_inj {a b : Anchor} : a.emittedIdx = b.emittedIdx ↔ a = b := by
  cases a <;> cases b <;> decide

theorem dropIdx_inj {a b : Anchor} : a.dropIdx = b.dropIdx ↔ a = b := by
  cases a <;> cases b <;> decide

theorem emittedIdx_ne_dropIdx (a b : Anchor) : a.emittedIdx ≠ b.dropIdx := by
  cases a <;> cases b <;> decide

theorem count_cons (a : Anchor) (e : BpfEvent) (events : List BpfEvent) :
    a.count (e :: events) = a.count events + if e.anchor = a then 1 else 0 := by
  simp [count, List.countP_cons]

theorem eq_nil_of_count_eq_zero {events : List BpfEvent} (h : ∀ a : Anchor, a.count events = 0) :
    events = [] := by
  cases events with
  | nil => rfl
  | cons e events =>
      have hone := h e.anchor
      rw [count_cons, if_pos rfl] at hone
      omega

end Anchor

/-! ## Reports -/

namespace GateBpf

/-- The report a step makes, and whether the ring buffer has room for it. -/
def report (g : GateBpf) : BpfStep → Option (BpfEvent × Bool)
  | .binderExit uid tgid reserved =>
      if g.marked tgid && bpfBlocked g.blockedUids uid then
        some (⟨tgid, uid, g.clock, .binder⟩, reserved)
      else none
  | .uidSwitch uid tgid reserved =>
      if bpfBlocked g.blockedUids uid then some (⟨tgid, uid, g.clock, .uidSwitch⟩, reserved)
      else none
  | _ => none

def attemptedBy (g : GateBpf) (step : BpfStep) : List BpfEvent :=
  match g.report step with
  | some (e, _) => [e]
  | none => []

def submittedBy (g : GateBpf) (step : BpfStep) : List BpfEvent :=
  match g.report step with
  | some (e, true) => [e]
  | _ => []

def droppedBy (g : GateBpf) (step : BpfStep) : List BpfEvent :=
  match g.report step with
  | some (e, false) => [e]
  | _ => []

/-- A report is submitted or dropped. -/
theorem count_attemptedBy (a : Anchor) (g : GateBpf) (step : BpfStep) :
    a.count (g.attemptedBy step) = a.count (g.submittedBy step) + a.count (g.droppedBy step) := by
  unfold attemptedBy submittedBy droppedBy
  split
  next e reserved h =>
    cases reserved with
    | true => rw [h]; rfl
    | false => rw [h]; simp [Anchor.count]
  next h => rw [h]; rfl

theorem stats_bump (g : GateBpf) (idx i : Fin 6) :
    (g.bump idx).stats i = g.stats i + if i = idx then 1 else 0 := by
  show Function.update g.stats idx (g.stats idx + 1) i = _
  rw [Function.update_apply]
  split_ifs with h
  · rw [h]
  · rfl

/-- The events and the counters of the anchors after a step. -/
structure Counted (g : GateBpf) (step : BpfStep) (g' : GateBpf) : Prop where
  events : g'.events = g.submittedBy step ++ g.events
  emitted : ∀ a : Anchor, g'.stats a.emittedIdx =
    g.stats a.emittedIdx + a.count (g.submittedBy step) + a.count (g.droppedBy step)
  dropped : ∀ a : Anchor, g'.stats a.dropIdx = g.stats a.dropIdx + a.count (g.droppedBy step)

theorem Counted.of_no_report {g g' : GateBpf} {step : BpfStep} (hreport : g.report step = none)
    (hevents : g'.events = g.events)
    (hstats : ∀ a : Anchor, g'.stats a.emittedIdx = g.stats a.emittedIdx ∧
      g'.stats a.dropIdx = g.stats a.dropIdx) : Counted g step g' := by
  have hsubmitted : g.submittedBy step = [] := by rw [submittedBy, hreport]
  have hdropped : g.droppedBy step = [] := by rw [droppedBy, hreport]
  refine ⟨?_, fun a => ?_, fun a => ?_⟩
  · rw [hsubmitted, hevents, List.nil_append]
  · rw [hsubmitted, hdropped]
    exact (hstats a).1
  · rw [hdropped]
    exact (hstats a).2

/-- **`emit` and the `bump` after it**: the event is submitted or dropped, and
counted as emitted in both cases. -/
theorem counted_emit {g mid : GateBpf} {step : BpfStep} {e : BpfEvent} {reserved : Bool}
    (hreport : g.report step = some (e, reserved)) (hevents : mid.events = g.events)
    (hclock : e.time = mid.clock) (hstats : mid.stats = g.stats) :
    Counted g step
      ((mid.emit e.tgid e.uid e.anchor e.anchor.dropIdx reserved).bump e.anchor.emittedIdx) := by
  have hone (a : Anchor) : a.count [e] = if e.anchor = a then 1 else 0 := by
    rw [Anchor.count_cons]
    exact Nat.zero_add _
  have hswap (a : Anchor) : (if a = e.anchor then 1 else 0) = a.count [e] := by
    rw [hone]
    exact if_congr eq_comm rfl rfl
  cases reserved with
  | true =>
      have hsubmitted : g.submittedBy step = [e] := by rw [submittedBy, hreport]
      have hdropped : g.droppedBy step = [] := by rw [droppedBy, hreport]
      have hsame : (mid.emit e.tgid e.uid e.anchor e.anchor.dropIdx true).stats = g.stats := hstats
      refine ⟨?_, fun a => ?_, fun a => ?_⟩
      · rw [hsubmitted, ← hevents]
        show ⟨e.tgid, e.uid, mid.clock, e.anchor⟩ :: mid.events = _
        rw [← hclock]
        rfl
      · rw [hsubmitted, hdropped, stats_bump, hsame, ← hswap]
        simp only [Anchor.emittedIdx_inj]
        rfl
      · rw [hdropped, stats_bump, hsame, if_neg (Anchor.emittedIdx_ne_dropIdx _ _).symm]
        rfl
  | false =>
      have hsubmitted : g.submittedBy step = [] := by rw [submittedBy, hreport]
      have hdropped : g.droppedBy step = [e] := by rw [droppedBy, hreport]
      have hbumped (i : Fin 6) :
          (mid.emit e.tgid e.uid e.anchor e.anchor.dropIdx false).stats i =
            g.stats i + if i = e.anchor.dropIdx then 1 else 0 := hstats ▸ mid.stats_bump _ i
      refine ⟨?_, fun a => ?_, fun a => ?_⟩
      · rw [hsubmitted]
        exact hevents
      · rw [hsubmitted, hdropped, stats_bump, hbumped, if_neg (Anchor.emittedIdx_ne_dropIdx _ _),
          ← hswap]
        simp only [Anchor.emittedIdx_inj]
        rfl
      · rw [hdropped, stats_bump, hbumped, if_neg (Anchor.emittedIdx_ne_dropIdx _ _).symm, ← hswap]
        simp only [Anchor.dropIdx_inj]
        rfl

/-- An entry is no report. -/
theorem binderEntry_counters (uid : Uid) (tgid : Tgid) (handle : Option UInt32) (g : GateBpf) :
    (g.binderEntry uid tgid handle).events = g.events ∧
      ∀ a : Anchor, (g.binderEntry uid tgid handle).stats a.emittedIdx = g.stats a.emittedIdx ∧
        (g.binderEntry uid tgid handle).stats a.dropIdx = g.stats a.dropIdx := by
  have hbump (g : GateBpf) {idx : Fin 6} (hidx : idx = 0 ∨ idx = 5) (a : Anchor) :
      (g.bump idx).stats a.emittedIdx = g.stats a.emittedIdx ∧
        (g.bump idx).stats a.dropIdx = g.stats a.dropIdx := by
    simp only [stats_bump]
    rcases hidx with rfl | rfl <;> cases a <;> exact ⟨rfl, rfl⟩
  unfold binderEntry recentlyReported
  by_cases hblocked : bpfBlocked g.blockedUids uid
  · cases handle with
    | none =>
        simp only [hblocked, Bool.not_true, Bool.false_eq_true, if_false]
        exact ⟨rfl, hbump g (.inr rfl)⟩
    | some handle =>
        by_cases hmanager : handle = 0
        · simp [hmanager]
        · cases hlimited : g.limited tgid with
          | true => simp [hmanager]
          | false =>
              simp only [hblocked, hmanager, Bool.not_true, Bool.false_eq_true, if_false]
              exact ⟨rfl, fun a => hbump _ (.inl rfl) a⟩
  · simp [hblocked]

/-- **What a step does to the counters of the anchors.** -/
theorem counted_next {g g' : GateBpf} {step : BpfStep} (hstep : g.next step = some g') :
    Counted g step g' := by
  cases step with
  | binderEntry uid tgid handle =>
      obtain rfl := Option.some.inj hstep
      obtain ⟨hevents, hstats⟩ := binderEntry_counters uid tgid handle g
      exact .of_no_report rfl hevents hstats
  | binderExit uid tgid reserved =>
      obtain rfl := Option.some.inj hstep
      unfold binderExit
      by_cases hmarked : g.marked tgid
      · by_cases hblocked : bpfBlocked g.blockedUids uid
        · simp only [hmarked, hblocked, Bool.not_true, Bool.false_eq_true, if_false]
          refine counted_emit (e := ⟨tgid, uid, g.clock, .binder⟩) ?_ rfl rfl rfl
          simp [report, hmarked, hblocked]
        · simp only [hmarked, hblocked]
          refine .of_no_report ?_ rfl fun a => ⟨rfl, rfl⟩
          simp [report, hblocked]
      · simp only [hmarked]
        refine .of_no_report ?_ rfl fun a => ⟨rfl, rfl⟩
        simp [report, hmarked]
  | uidSwitch uid tgid reserved =>
      obtain rfl := Option.some.inj hstep
      unfold uidSwitch
      by_cases hblocked : bpfBlocked g.blockedUids uid
      · simp only [hblocked, Bool.not_true, Bool.false_eq_true, if_false]
        refine counted_emit (e := ⟨tgid, uid, g.clock, .uidSwitch⟩) ?_ rfl rfl rfl
        simp [report, hblocked]
      · simp only [hblocked]
        refine .of_no_report ?_ rfl fun a => ⟨rfl, rfl⟩
        simp [report, hblocked]
  | setBlocked uid blocked =>
      obtain rfl := Option.some.inj hstep
      exact .of_no_report rfl rfl fun a => ⟨rfl, rfl⟩
  | clock now =>
      simp only [next] at hstep
      split_ifs at hstep
      obtain rfl := Option.some.inj hstep
      exact .of_no_report rfl rfl fun a => ⟨rfl, rfl⟩

end GateBpf

/-! ## Runs -/

/-- The programs, and what has become of their reports, newest first. -/
structure Metered where
  gate : GateBpf
  attempted : List BpfEvent
  dropped : List BpfEvent

namespace Metered

def next (m : Metered) (step : BpfStep) : Option Metered :=
  (m.gate.next step).map fun g =>
    { gate := g
      attempted := m.gate.attemptedBy step ++ m.attempted
      dropped := m.gate.droppedBy step ++ m.dropped }

structure Initial (m : Metered) : Prop where
  gate : m.gate.Initial
  attempted : m.attempted = []
  dropped : m.dropped = []

/-- The counters are those of the events that were submitted and dropped. -/
structure Conserves (m : Metered) : Prop where
  events : m.gate.health.events = Anchor.binder.count m.gate.events
  ringbufFull : m.gate.health.ringbufFull = Anchor.binder.count m.dropped
  uidSwitchEvents : m.gate.health.uidSwitchEvents = Anchor.uidSwitch.count m.gate.events
  uidSwitchRingbufFull : m.gate.health.uidSwitchRingbufFull = Anchor.uidSwitch.count m.dropped
  binderReports :
    m.gate.health.events + m.gate.health.ringbufFull = Anchor.binder.count m.attempted
  uidSwitchReports :
    m.gate.health.uidSwitchEvents + m.gate.health.uidSwitchRingbufFull =
      Anchor.uidSwitch.count m.attempted

/-- What the counters of the anchors say in every run. -/
structure Accounted (m : Metered) : Prop where
  emitted : ∀ a : Anchor,
    m.gate.stats a.emittedIdx = a.count m.gate.events + a.count m.dropped
  dropped : ∀ a : Anchor, m.gate.stats a.dropIdx = a.count m.dropped
  attempted : ∀ a : Anchor, a.count m.attempted = a.count m.gate.events + a.count m.dropped

/-- The ring buffer has room for the report of a step. -/
def HasSpace (m : Metered) (step : BpfStep) : Prop := ∀ e, m.gate.report step ≠ some (e, false)

end Metered

def meteredBpf : System Metered BpfStep := .ofNext Metered.Initial Metered.next

/-- **The counter of emitted events counts the dropped ones too.** -/
theorem accounted_of_metered {m : Metered} (hm : meteredBpf.Reachable m) : m.Accounted := by
  refine hm.invariant (fun m hm => ?_) fun m step m' hm _ hstep => ?_
  · refine ⟨fun a => ?_, fun a => ?_, fun a => ?_⟩
    · rw [hm.gate.stats, hm.gate.events, hm.dropped]
      rfl
    · rw [hm.gate.stats, hm.dropped]
      rfl
    · rw [hm.attempted, hm.gate.events, hm.dropped]
      rfl
  · obtain ⟨g, hg, rfl⟩ := Option.map_eq_some_iff.mp hstep
    have hcounted := GateBpf.counted_next hg
    have happend (a : Anchor) (l l' : List BpfEvent) : a.count (l ++ l') = a.count l + a.count l' :=
      List.countP_append
    refine ⟨fun a => ?_, fun a => ?_, fun a => ?_⟩
    · rw [hcounted.emitted, hcounted.events, happend, happend, hm.emitted]
      omega
    · rw [hcounted.dropped, happend, hm.dropped]
      omega
    · rw [hcounted.events, happend, happend, happend, hm.attempted, GateBpf.count_attemptedBy]
      omega

/-- Every run can be metered. -/
theorem exists_metered {g : GateBpf} (hg : gateBpf.Reachable g) :
    ∃ m, meteredBpf.Reachable m ∧ m.gate = g := by
  induction hg with
  | @init g hg => exact ⟨⟨g, [], []⟩, .init ⟨hg, rfl, rfl⟩, rfl⟩
  | @step g g' step _ _ hstep ih =>
      obtain ⟨m, hm, rfl⟩ := ih
      exact ⟨_, .step hm trivial (Option.map_eq_some_iff.mpr ⟨g', hstep, rfl⟩), rfl⟩

/-- **What was really submitted**, in any run, is the difference of the two
counters of an anchor. -/
theorem health_of_reachable {g : GateBpf} (hg : gateBpf.Reachable g) :
    g.health.events = Anchor.binder.count g.events + g.health.ringbufFull ∧
      g.health.uidSwitchEvents =
        Anchor.uidSwitch.count g.events + g.health.uidSwitchRingbufFull := by
  obtain ⟨m, hm, rfl⟩ := exists_metered hg
  have haccounted := accounted_of_metered hm
  have hanchor (a : Anchor) :
      m.gate.stats a.emittedIdx = a.count m.gate.events + m.gate.stats a.dropIdx := by
    rw [haccounted.emitted, haccounted.dropped]
  exact ⟨hanchor .binder, hanchor .uidSwitch⟩

theorem conserves_iff {m : Metered} (hm : m.Accounted) : m.Conserves ↔ m.dropped = [] := by
  constructor
  · intro h
    refine Anchor.eq_nil_of_count_eq_zero fun a => ?_
    cases a with
    | binder =>
        have hevents : m.gate.stats 1 = _ := h.events
        have hemitted : m.gate.stats 1 = _ := hm.emitted .binder
        omega
    | uidSwitch =>
        have hevents : m.gate.stats 3 = _ := h.uidSwitchEvents
        have hemitted : m.gate.stats 3 = _ := hm.emitted .uidSwitch
        omega
  · intro hnone
    have hemitted (a : Anchor) : m.gate.stats a.emittedIdx = a.count m.gate.events := by
      rw [hm.emitted, hnone]
      rfl
    have hreports (a : Anchor) :
        m.gate.stats a.emittedIdx + m.gate.stats a.dropIdx = a.count m.attempted := by
      rw [hm.attempted, hm.dropped, hemitted]
    exact ⟨hemitted .binder, hm.dropped .binder, hemitted .uidSwitch, hm.dropped .uidSwitch,
      hreports .binder, hreports .uidSwitch⟩

/-- **Exactly the runs in which the ring buffer always has room** leave counters
that conserve the events. -/
theorem counters_conserve_iff {m : Metered} :
    meteredBpf.ReachableWhen Metered.HasSpace m ↔ meteredBpf.Reachable m ∧ m.Conserves := by
  have hlog : meteredBpf.ReachableWhen Metered.HasSpace m ↔
      meteredBpf.Reachable m ∧ m.dropped = [] := by
    refine System.reachableWhen_iff_log_eq_nil (fun m (hm : m.Initial) => hm.dropped)
      fun m step m' _ hstep => ?_
    obtain ⟨g, -, rfl⟩ := Option.map_eq_some_iff.mp hstep
    refine ⟨m.gate.droppedBy step, rfl, ?_⟩
    unfold GateBpf.droppedBy Metered.HasSpace
    split <;> simp_all
  rw [hlog]
  exact and_congr_right fun hm => (conserves_iff (accounted_of_metered hm)).symm

/-- A dropped event is counted as emitted. -/
theorem not_counters_conserve : ¬ ∀ m, meteredBpf.Reachable m → m.Conserves := by
  intro h
  let m : Metered := ⟨.oneBlocked, [], []⟩
  have hdropped : (m.next (.uidSwitch 10001 4000 false)).map
      (fun m => (m.gate.health.uidSwitchEvents, m.gate.events)) = some (1, []) := by
    decide +kernel
  obtain ⟨m', hstep, hend⟩ := Option.map_eq_some_iff.mp hdropped
  have hm : meteredBpf.Reachable m := .init ⟨GateBpf.oneBlocked_init, rfl, rfl⟩
  have hevents := (h m' (.step hm trivial hstep)).uidSwitchEvents
  obtain ⟨hcounter, hnone⟩ := Prod.mk.inj hend
  rw [hcounter, hnone] at hevents
  cases hevents

end Ningshi
