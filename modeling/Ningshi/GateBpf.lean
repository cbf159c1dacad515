import Ningshi.Gate
import Ningshi.Lib.BoundedMap

/-!
# `gate.bpf.c`: the programs in the kernel

A transaction of a blocked process marks it when it is entered and reports it
when it is left; a switch to a blocked uid reports the process at once.  The
marks, and the times at which a process was last let through to be marked, are
in maps of 1024 keys each.

Every run of a program is one step.  Between the steps the clock moves on and
the block map is changed.  The events are those that were submitted to the ring
buffer; a reservation may fail at any time.
-/

namespace Ningshi

open Std Transition

abbrev Tgid := UInt32

/-- Which of the anchors an event comes from. -/
inductive Anchor where
  | binder
  | uidSwitch
  deriving DecidableEq

/-- A submitted event. -/
structure BpfEvent where
  tgid : Tgid
  uid : Uid
  /-- in ns -/
  time : UInt64
  anchor : Anchor
  deriving DecidableEq

abbrev TgidMap (β : Type) := BoundedMap Tgid β compare 1024

structure GateBpf where
  blockedUids : UidMap UInt8
  /-- marks of the binder anchor -/
  spawned : TgidMap UInt8
  /-- time of the last report -/
  reported : TgidMap UInt64
  /-- health counters, summed over the CPUs; a `u64` that goes up by one in a step does
  not come near `2 ^ 64` -/
  stats : Fin 6 → Nat
  /-- in ns -/
  clock : UInt64
  /-- newest first -/
  events : List BpfEvent

def reportCooldownNs : UInt64 := 5 * 1000000000

namespace GateBpf

def bump (idx : Fin 6) (g : GateBpf) : GateBpf :=
  { g with stats := Function.update g.stats idx (g.stats idx + 1) }

/-- `reserved`: did the ring buffer have room? -/
def emit (tgid : Tgid) (uid : Uid) (anchor : Anchor) (dropIdx : Fin 6) (reserved : Bool)
    (g : GateBpf) : GateBpf :=
  if reserved then { g with events := ⟨tgid, uid, g.clock, anchor⟩ :: g.events }
  else g.bump dropIdx

/-- Has the last report been less than the cooldown ago? -/
def limited (tgid : Tgid) (g : GateBpf) : Bool :=
  (g.reported.lookup tgid).any fun last => g.clock - last < reportCooldownNs

def recentlyReported (tgid : Tgid) (g : GateBpf) : Bool × GateBpf :=
  if g.limited tgid then (true, g)
  else (false, { g with reported := g.reported.update tgid g.clock })

/-- `gate_binder_entry`.  `handle` is the target of the transaction, if it could
be read. -/
def binderEntry (uid : Uid) (tgid : Tgid) (handle : Option UInt32) (g : GateBpf) : GateBpf :=
  if !bpfBlocked g.blockedUids uid then g
  else
    match handle with
    | none => g.bump 5
    | some handle =>
        -- a transaction with the service manager
        if handle = 0 then g
        else
          match g.recentlyReported tgid with
          | (true, g) => g
          | (false, g) => { g with spawned := g.spawned.update tgid 1 }.bump 0

/-- Is a mark pending? -/
def marked (tgid : Tgid) (g : GateBpf) : Bool :=
  (g.spawned.lookup tgid).any fun mark => mark ≠ 0

/-- `gate_binder_exit`. -/
def binderExit (uid : Uid) (tgid : Tgid) (reserved : Bool) (g : GateBpf) : GateBpf :=
  if !g.marked tgid then g
  else
    -- the mark is cleared either way
    let g := { g with spawned := g.spawned.delete tgid }
    if !bpfBlocked g.blockedUids uid then g
    else (g.emit tgid uid .binder 2 reserved).bump 1

/-- `gate_uid_switch`. -/
def uidSwitch (uid : Uid) (tgid : Tgid) (reserved : Bool) (g : GateBpf) : GateBpf :=
  if !bpfBlocked g.blockedUids uid then g
  else (g.emit tgid uid .uidSwitch 4 reserved).bump 3

end GateBpf

/-! ## The health counters -/

/-- The counters in the kernel, as `status.gate` shows them. -/
structure KernelCounters where
  marks : Nat
  /-- events emitted by the binder anchor -/
  events : Nat
  /-- ring buffer full: binder events lost -/
  ringbufFull : Nat
  /-- events emitted by the uid-switch anchor -/
  uidSwitchEvents : Nat
  /-- ring buffer full: uid-switch events lost -/
  uidSwitchRingbufFull : Nat
  probeReadFailures : Nat
  deriving DecidableEq

def GateBpf.health (g : GateBpf) : KernelCounters where
  marks := g.stats 0
  events := g.stats 1
  ringbufFull := g.stats 2
  uidSwitchEvents := g.stats 3
  uidSwitchRingbufFull := g.stats 4
  probeReadFailures := g.stats 5

/-- The counter of the events an anchor has emitted. -/
def Anchor.emittedIdx : Anchor → Fin 6
  | .binder => 1
  | .uidSwitch => 3

/-- The counter of the events of an anchor that found the ring buffer full. -/
def Anchor.dropIdx : Anchor → Fin 6
  | .binder => 2
  | .uidSwitch => 4

/-! ## Runs -/

inductive BpfStep where
  | binderEntry (uid : Uid) (tgid : Tgid) (handle : Option UInt32)
  | binderExit (uid : Uid) (tgid : Tgid) (reserved : Bool)
  | uidSwitch (uid : Uid) (tgid : Tgid) (reserved : Bool)
  /-- by the daemon -/
  | setBlocked (uid : Uid) (blocked : Bool)
  /-- the clock shows a later time -/
  | clock (now : UInt64)

namespace GateBpf

def next (g : GateBpf) : BpfStep → Option GateBpf
  | .binderEntry uid tgid handle => some (g.binderEntry uid tgid handle)
  | .binderExit uid tgid reserved => some (g.binderExit uid tgid reserved)
  | .uidSwitch uid tgid reserved => some (g.uidSwitch uid tgid reserved)
  | .setBlocked uid blocked =>
      some { g with blockedUids := applyBlock uid blocked g.blockedUids }
  | .clock now => if g.clock ≤ now then some { g with clock := now } else none

/-- The programs have just been loaded. -/
structure Initial (g : GateBpf) : Prop where
  spawned : g.spawned = .empty
  reported : g.reported = .empty
  stats : g.stats = fun _ => 0
  events : g.events = []

end GateBpf

def gateBpf : System GateBpf BpfStep := .ofNext GateBpf.Initial GateBpf.next

/-! ## What the programs do -/

namespace GateBpf

variable {g g' : GateBpf} {tgid t : Tgid}

/-- A transaction the binder anchor looks at. -/
def Watched (uid : Uid) (handle : UInt32) (g : GateBpf) : Prop :=
  bpfBlocked g.blockedUids uid = true ∧ handle ≠ 0

instance (g : GateBpf) (uid : Uid) (handle : UInt32) : Decidable (g.Watched uid handle) :=
  inferInstanceAs (Decidable (_ ∧ _))

/-- An exit or a switch that submits an event when it comes to that. -/
def Submits (uid : Uid) (reserved : Bool) (g : GateBpf) : Prop :=
  bpfBlocked g.blockedUids uid = true ∧ reserved = true

instance (g : GateBpf) (uid : Uid) (reserved : Bool) : Decidable (g.Submits uid reserved) :=
  inferInstanceAs (Decidable (_ ∧ _))

/-- The time of a report is noted and a mark set, as far as there is room. -/
def letThrough (tgid : Tgid) (g : GateBpf) : GateBpf :=
  { g with
    reported := g.reported.update tgid g.clock
    spawned := g.spawned.update tgid 1 }

def unmark (tgid : Tgid) (g : GateBpf) : GateBpf :=
  { g with spawned := g.spawned.delete tgid }

def submit (tgid : Tgid) (uid : Uid) (anchor : Anchor) (g : GateBpf) : GateBpf :=
  { g with events := ⟨tgid, uid, g.clock, anchor⟩ :: g.events }

/-- Two states that differ in the counters only. -/
def SameButStats (g g' : GateBpf) : Prop := ∃ stats, g' = { g with stats := stats }

theorem binderEntry_none (uid : Uid) (tgid : Tgid) (g : GateBpf) :
    SameButStats g (g.binderEntry uid tgid none) := by
  unfold binderEntry
  split_ifs
  · exact ⟨g.stats, rfl⟩
  · exact ⟨_, rfl⟩

/-- An entry is ignored, or the process is let through to be marked. -/
theorem binderEntry_some (uid : Uid) (tgid : Tgid) (handle : UInt32) (g : GateBpf) :
    (¬(g.Watched uid handle ∧ g.limited tgid = false) ∧
        SameButStats g (g.binderEntry uid tgid (some handle))) ∨
      (g.Watched uid handle ∧ g.limited tgid = false ∧
        SameButStats (g.letThrough tgid) (g.binderEntry uid tgid (some handle))) := by
  have hsame : SameButStats g g := ⟨g.stats, rfl⟩
  unfold binderEntry recentlyReported Watched
  by_cases hblocked : bpfBlocked g.blockedUids uid = true
  · by_cases hhandle : handle = 0
    · simp [hhandle, hsame]
    · cases hlimited : g.limited tgid with
      | true => simp [hblocked, hhandle, hsame]
      | false =>
          refine .inr ⟨⟨hblocked, hhandle⟩, rfl, ?_⟩
          simp only [hblocked, hhandle, Bool.not_true, Bool.false_eq_true, if_false]
          exact ⟨_, rfl⟩
  · simp [hblocked, hsame]

/-- An exit that finds a mark clears it and may submit an event. -/
theorem binderExit_marked {uid : Uid} {tgid : Tgid} {reserved : Bool} {g : GateBpf}
    (h : g.marked tgid = true) :
    (¬ g.Submits uid reserved ∧
        SameButStats (g.unmark tgid) (g.binderExit uid tgid reserved)) ∨
      (g.Submits uid reserved ∧
        SameButStats ((g.unmark tgid).submit tgid uid .binder)
          (g.binderExit uid tgid reserved)) := by
  unfold binderExit Submits emit
  rw [h]
  by_cases hblocked : bpfBlocked g.blockedUids uid = true
  · cases reserved with
    | true => exact .inr ⟨⟨hblocked, rfl⟩, by simp only [hblocked]; exact ⟨_, rfl⟩⟩
    | false => exact .inl ⟨by simp, by simp only [hblocked]; exact ⟨_, rfl⟩⟩
  · refine .inl ⟨by simp [hblocked], ?_⟩
    simp only [hblocked]
    exact ⟨_, rfl⟩

theorem binderExit_unmarked {uid : Uid} {tgid : Tgid} {reserved : Bool} {g : GateBpf}
    (h : g.marked tgid = false) : g.binderExit uid tgid reserved = g := by
  rw [binderExit, h]
  rfl

theorem uidSwitch_cases (uid : Uid) (tgid : Tgid) (reserved : Bool) (g : GateBpf) :
    (¬ g.Submits uid reserved ∧ SameButStats g (g.uidSwitch uid tgid reserved)) ∨
      (g.Submits uid reserved ∧
        SameButStats (g.submit tgid uid .uidSwitch) (g.uidSwitch uid tgid reserved)) := by
  unfold uidSwitch Submits emit
  by_cases hblocked : bpfBlocked g.blockedUids uid = true
  · cases reserved with
    | true => exact .inr ⟨⟨hblocked, rfl⟩, by simp only [hblocked]; exact ⟨_, rfl⟩⟩
    | false => exact .inl ⟨by simp, by simp only [hblocked]; exact ⟨_, rfl⟩⟩
  · refine .inl ⟨by simp [hblocked], ?_⟩
    simp only [hblocked]
    exact ⟨g.stats, rfl⟩

/-- What a step makes of the maps, the clock and the events. -/
inductive Moved (g : GateBpf) : BpfStep → GateBpf → Prop where
  | quiet (step : BpfStep) : Moved g step g
  | letThrough {uid : Uid} {tgid : Tgid} {handle : UInt32} (hwatched : g.Watched uid handle)
      (hlimited : g.limited tgid = false) :
      Moved g (.binderEntry uid tgid (some handle)) (g.letThrough tgid)
  | lose {uid : Uid} {tgid : Tgid} {reserved : Bool} (hmarked : g.marked tgid = true)
      (hlost : ¬ g.Submits uid reserved) :
      Moved g (.binderExit uid tgid reserved) (g.unmark tgid)
  | report {uid : Uid} {tgid : Tgid} {reserved : Bool} (hmarked : g.marked tgid = true)
      (hsubmits : g.Submits uid reserved) :
      Moved g (.binderExit uid tgid reserved) ((g.unmark tgid).submit tgid uid .binder)
  | switch {uid : Uid} {tgid : Tgid} {reserved : Bool} (hsubmits : g.Submits uid reserved) :
      Moved g (.uidSwitch uid tgid reserved) (g.submit tgid uid .uidSwitch)
  | clock {now : UInt64} (hnow : g.clock ≤ now) : Moved g (.clock now) { g with clock := now }

/-- Two states that differ in the counters and the block map only. -/
def SameRecords (g g' : GateBpf) : Prop :=
  ∃ blockedUids stats, g' = { g with blockedUids := blockedUids, stats := stats }

theorem SameButStats.sameRecords (h : SameButStats g g') : SameRecords g g' := by
  obtain ⟨stats, rfl⟩ := h
  exact ⟨g.blockedUids, stats, rfl⟩

/-- **What a step does.** -/
theorem next_cases {step : BpfStep} (hstep : g.next step = some g') :
    ∃ mid, Moved g step mid ∧ SameRecords mid g' := by
  cases step with
  | binderEntry uid tgid handle =>
      obtain rfl := Option.some.inj hstep
      cases handle with
      | none => exact ⟨g, .quiet _, (binderEntry_none uid tgid g).sameRecords⟩
      | some handle =>
          rcases binderEntry_some uid tgid handle g with ⟨-, hsame⟩ | ⟨hwatched, hlimited, hsame⟩
          · exact ⟨g, .quiet _, hsame.sameRecords⟩
          · exact ⟨_, .letThrough hwatched hlimited, hsame.sameRecords⟩
  | binderExit uid tgid reserved =>
      obtain rfl := Option.some.inj hstep
      cases hmarked : g.marked tgid with
      | false =>
          rw [binderExit_unmarked hmarked]
          exact ⟨g, .quiet _, g.blockedUids, g.stats, rfl⟩
      | true =>
          rcases binderExit_marked hmarked with ⟨hlost, hsame⟩ | ⟨hsubmits, hsame⟩
          · exact ⟨_, .lose hmarked hlost, hsame.sameRecords⟩
          · exact ⟨_, .report hmarked hsubmits, hsame.sameRecords⟩
  | uidSwitch uid tgid reserved =>
      obtain rfl := Option.some.inj hstep
      rcases uidSwitch_cases uid tgid reserved g with ⟨-, hsame⟩ | ⟨hsubmits, hsame⟩
      · exact ⟨g, .quiet _, hsame.sameRecords⟩
      · exact ⟨_, .switch hsubmits, hsame.sameRecords⟩
  | setBlocked uid blocked =>
      obtain rfl := Option.some.inj hstep
      exact ⟨g, .quiet _, _, g.stats, rfl⟩
  | clock now =>
      simp only [next] at hstep
      split_ifs at hstep with hnow
      obtain rfl := Option.some.inj hstep
      exact ⟨_, .clock hnow, g.blockedUids, g.stats, rfl⟩

theorem marked_iff :
    g.marked tgid = true ↔ ∃ mark, g.spawned.lookup tgid = some mark ∧ mark ≠ 0 := by
  simp [marked, Option.any_eq_true]

/-- Letting a process through marks it, if there is room. -/
theorem marked_letThrough :
    (g.letThrough tgid).marked t = true ↔
      (t = tgid ∧ g.spawned.HasRoom tgid) ∨ g.marked t = true := by
  simp only [marked, letThrough, BoundedMap.lookup_update]
  split_ifs with h
  · simp [h.1.symm, h.2]
  · have hnot : ¬(t = tgid ∧ g.spawned.HasRoom tgid) := fun h' => h ⟨h'.1.symm, h'.2⟩
    simp [hnot]

theorem marked_unmark : (g.unmark tgid).marked t = true ↔ t ≠ tgid ∧ g.marked t = true := by
  simp only [marked, unmark, BoundedMap.lookup_delete]
  split_ifs with h
  · simp [h]
  · simp [Ne.symm h]

/-- A cleared mark is gone. -/
theorem marked_unmark_self (tgid : Tgid) (g : GateBpf) : (g.unmark tgid).marked tgid = false := by
  rw [Bool.eq_false_iff, ne_eq, marked_unmark]
  exact fun h => h.1 rfl

/-- The programs have just been loaded, with one uid blocked. -/
def oneBlocked : GateBpf where
  blockedUids := FiniteMap.insertAll [(10001, 1)] ∅
  spawned := .empty
  reported := .empty
  stats := fun _ => 0
  clock := 0
  events := []

theorem oneBlocked_init : gateBpf.init oneBlocked := ⟨rfl, rfl, rfl, rfl⟩

end GateBpf

end Ningshi
