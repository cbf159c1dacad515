import Ningshi.GateBpf

/-!
# `gate.bpf.c`: how often a process is reported

The programs let a process through to be marked once in five seconds, going by a
time they note when a transaction is entered.  The event comes later, when the
transaction is left; a switch of the uid is reported without a look at that
time; and a full map takes down no time at all.

`spaced_of_reachable` says that the events of a process are five seconds apart
in every run in which it is let through, or switches, only when its last event
is old enough, and `exists_not_spaced` that any other step can lead to two
events that are not.
-/

namespace Ningshi

open Std Transition

namespace GateBpf

variable {g g' : GateBpf} {tgid : Tgid}

/-! ## Events five seconds apart -/

/-- The last event of this process is at least five seconds old. -/
def Quiet (tgid : Tgid) (g : GateBpf) : Prop :=
  ∀ e ∈ g.events, e.tgid = tgid → e.time.toNat + reportCooldownNs.toNat ≤ g.clock.toNat

/-- Any two events of one process are at least five seconds apart. -/
def Spaced (g : GateBpf) : Prop :=
  g.events.Pairwise fun later earlier => later.tgid = earlier.tgid →
    earlier.time.toNat + reportCooldownNs.toNat ≤ later.time.toNat

/-- A process is let through to a mark, or switches to a blocked uid, only when
its last event is five seconds old, and switches without a mark pending. -/
def KeepsSpacing (g : GateBpf) : BpfStep → Prop
  | .binderEntry uid tgid (some handle) =>
      g.Watched uid handle → g.limited tgid = false → g.spawned.HasRoom tgid → g.Quiet tgid
  | .uidSwitch uid tgid reserved =>
      g.Submits uid reserved → g.marked tgid = false ∧ g.Quiet tgid
  | _ => True

instance (g : GateBpf) (tgid : Tgid) : Decidable (g.Quiet tgid) :=
  inferInstanceAs (Decidable (∀ e ∈ g.events, _))

instance (g : GateBpf) : (step : BpfStep) → Decidable (g.KeepsSpacing step)
  | .binderEntry _ _ none => .isTrue trivial
  | .binderEntry _ _ (some _) => inferInstanceAs (Decidable (_ → _ → _ → _))
  | .binderExit _ _ _ => .isTrue trivial
  | .uidSwitch _ _ _ => inferInstanceAs (Decidable (_ → _ ∧ _))
  | .setBlocked _ _ => .isTrue trivial
  | .clock _ => .isTrue trivial

/-- What such a run keeps. -/
structure Spacing (g : GateBpf) : Prop where
  spaced : g.Spaced
  marked : ∀ tgid, g.marked tgid = true → g.Quiet tgid

theorem Spacing.sameRecords (hg : g.Spacing) (h : SameRecords g g') : g'.Spacing := by
  obtain ⟨blockedUids, stats, rfl⟩ := h
  exact ⟨hg.spaced, hg.marked⟩

theorem Spacing.letThrough (hg : g.Spacing) (hquiet : g.spawned.HasRoom tgid → g.Quiet tgid) :
    (g.letThrough tgid).Spacing := by
  refine ⟨hg.spaced, fun t ht => ?_⟩
  rcases marked_letThrough.mp ht with ⟨rfl, hroom⟩ | ht
  · exact hquiet hroom
  · exact hg.marked t ht

theorem Spacing.unmark (hg : g.Spacing) (tgid : Tgid) : (g.unmark tgid).Spacing :=
  ⟨hg.spaced, fun t ht => hg.marked t (marked_unmark.mp ht).2⟩

theorem Spacing.submit (hg : g.Spacing) (hquiet : g.Quiet tgid) (hmarked : g.marked tgid = false)
    (uid : Uid) (anchor : Anchor) : (g.submit tgid uid anchor).Spacing := by
  refine ⟨List.pairwise_cons.mpr ⟨fun e he heq => hquiet e he heq.symm, hg.spaced⟩,
    fun t ht e he htgid => ?_⟩
  rcases List.mem_cons.mp he with rfl | he
  · -- the process that is reported has no mark
    obtain rfl : tgid = t := htgid
    exact absurd (hmarked.symm.trans ht) Bool.false_ne_true
  · exact hg.marked t ht e he htgid

theorem Spacing.clock (hg : g.Spacing) {now : UInt64} (hnow : g.clock ≤ now) :
    Spacing { g with clock := now } :=
  ⟨hg.spaced, fun t ht e he htgid =>
    (hg.marked t ht e he htgid).trans (UInt64.le_iff_toNat_le.mp hnow)⟩

/-- **A step that meets the condition** keeps the events apart. -/
theorem spacing_next {step : BpfStep} (hg : g.Spacing) (hkeeps : g.KeepsSpacing step)
    (hstep : g.next step = some g') : g'.Spacing := by
  obtain ⟨mid, hmoved, hsame⟩ := next_cases hstep
  refine Spacing.sameRecords ?_ hsame
  cases hmoved with
  | quiet => exact hg
  | letThrough hwatched hlimited => exact hg.letThrough (hkeeps hwatched hlimited)
  | @lose uid tgid reserved _ _ => exact hg.unmark tgid
  | @report uid tgid reserved hmarked _ =>
      exact (hg.unmark tgid).submit (hg.marked tgid hmarked) (marked_unmark_self tgid g) uid .binder
  | @switch uid tgid reserved hsubmits =>
      obtain ⟨hmarked, hquiet⟩ := hkeeps hsubmits
      exact hg.submit hquiet hmarked uid .uidSwitch
  | clock hnow => exact hg.clock hnow

end GateBpf

/-- **A process is reported at most once in five seconds**, in every such run. -/
theorem spaced_of_reachable {g : GateBpf} (hg : gateBpf.ReachableWhen GateBpf.KeepsSpacing g) :
    g.Spaced := by
  have hspacing : g.Spacing := by
    refine hg.invariant (fun s hs => ?_) fun s step s' hs hkeeps hstep =>
      GateBpf.spacing_next hs hkeeps hstep
    refine ⟨?_, fun t ht => ?_⟩
    · rw [GateBpf.Spaced, hs.events]
      exact .nil
    · rw [GateBpf.marked, hs.spawned, BoundedMap.lookup_empty] at ht
      cases ht
  exact hspacing.spaced

namespace GateBpf

variable {g : GateBpf} {tgid : Tgid} {uid : Uid}

/-- The daemon leaves the block map alone. -/
def BlocksFixed : GateBpf → BpfStep → Prop
  | _, .setBlocked _ _ => False
  | _, _ => True

theorem reachable_binderEntry (hg : gateBpf.ReachableWhen BlocksFixed g) (uid : Uid)
    (tgid : Tgid) (handle : Option UInt32) :
    gateBpf.ReachableWhen BlocksFixed (g.binderEntry uid tgid handle) :=
  .step hg (show g.BlocksFixed (.binderEntry uid tgid handle) from trivial) rfl

theorem reachable_binderExit (hg : gateBpf.ReachableWhen BlocksFixed g) (uid : Uid)
    (tgid : Tgid) (reserved : Bool) :
    gateBpf.ReachableWhen BlocksFixed (g.binderExit uid tgid reserved) :=
  .step hg (show g.BlocksFixed (.binderExit uid tgid reserved) from trivial) rfl

theorem reachable_uidSwitch (hg : gateBpf.ReachableWhen BlocksFixed g) (uid : Uid)
    (tgid : Tgid) (reserved : Bool) :
    gateBpf.ReachableWhen BlocksFixed (g.uidSwitch uid tgid reserved) :=
  .step hg (show g.BlocksFixed (.uidSwitch uid tgid reserved) from trivial) rfl

theorem not_spaced_submit (h : ¬ g.Quiet tgid) (uid : Uid) (anchor : Anchor) :
    ¬ (g.submit tgid uid anchor).Spaced := by
  intro hspaced
  refine h fun e he htgid => ?_
  exact (List.pairwise_cons.mp hspaced).1 e he htgid.symm

/-- An event that has just been submitted is not five seconds old. -/
theorem not_quiet_submit (tgid : Tgid) (uid : Uid) (anchor : Anchor) (g : GateBpf) :
    ¬ (g.submit tgid uid anchor).Quiet tgid := by
  intro hquiet
  have hold : g.clock.toNat + reportCooldownNs.toNat ≤ g.clock.toNat :=
    hquiet _ List.mem_cons_self rfl
  have hpos : 0 < reportCooldownNs.toNat := by decide
  omega

/-- A mark left behind so soon after an event is reported too soon. -/
theorem exists_not_spaced_of_marked (hg : gateBpf.ReachableWhen BlocksFixed g)
    (hmarked : g.marked tgid = true) (hblocked : bpfBlocked g.blockedUids uid = true)
    (hnot : ¬ g.Quiet tgid) : ∃ g', gateBpf.ReachableWhen BlocksFixed g' ∧ ¬ g'.Spaced := by
  refine ⟨_, reachable_binderExit hg uid tgid true, ?_⟩
  rcases binderExit_marked hmarked with ⟨hsubmits, -⟩ | ⟨-, stats, hsame⟩
  · exact absurd ⟨hblocked, rfl⟩ hsubmits
  · rw [hsame]
    exact not_spaced_submit (g := g.unmark tgid) hnot uid .binder

/-- **Any step that does not meet the condition** can lead to two events of one
process within five seconds. -/
theorem exists_not_spaced {step : BpfStep} (hg : gateBpf.ReachableWhen BlocksFixed g)
    (h : ¬ g.KeepsSpacing step) :
    ∃ g', gateBpf.ReachableWhen BlocksFixed g' ∧ ¬ g'.Spaced := by
  cases step with
  | binderEntry uid tgid handle =>
      cases handle with
      | none => exact absurd trivial h
      | some handle =>
          simp only [KeepsSpacing, Classical.not_imp] at h
          obtain ⟨hwatched, hlimited, hroom, hnot⟩ := h
          have hreached := reachable_binderEntry hg uid tgid (some handle)
          rcases binderEntry_some uid tgid handle g with ⟨hignored, -⟩ | ⟨-, -, stats, hsame⟩
          · exact absurd ⟨hwatched, hlimited⟩ hignored
          · rw [hsame] at hreached
            have hmarked : (g.letThrough tgid).marked tgid = true :=
              marked_letThrough.mpr (.inl ⟨rfl, hroom⟩)
            exact exists_not_spaced_of_marked hreached hmarked hwatched.1 hnot
  | uidSwitch uid tgid reserved =>
      simp only [KeepsSpacing, Classical.not_imp] at h
      obtain ⟨hsubmits, hnot⟩ := h
      have hreached := reachable_uidSwitch hg uid tgid reserved
      rcases uidSwitch_cases uid tgid reserved g with ⟨hquiet, -⟩ | ⟨-, stats, hsame⟩
      · exact absurd hsubmits hquiet
      · rw [hsame] at hreached
        by_cases hquiet : g.Quiet tgid
        · -- the mark is still to be reported
          have hmarked : g.marked tgid = true := by
            by_contra hunmarked
            exact hnot ⟨Bool.eq_false_iff.mpr hunmarked, hquiet⟩
          exact exists_not_spaced_of_marked hreached hmarked hsubmits.1
            (not_quiet_submit tgid uid .uidSwitch g)
        · exact ⟨_, hreached, not_spaced_submit (g := g) hquiet uid .uidSwitch⟩
  | binderExit uid tgid reserved => exact absurd trivial h
  | setBlocked uid blocked => exact absurd trivial h
  | clock now => exact absurd trivial h

/-- A transaction that takes 10 ns, and another one five seconds later. -/
def twoTransactions : List BpfStep :=
  [.binderEntry 10001 4000 (some 1), .clock 10, .binderExit 10001 4000 true,
    .clock 5000000010, .binderEntry 10001 4000 (some 1), .binderExit 10001 4000 true]

end GateBpf

theorem spaced_of_reachable_twoTransactions :
    ∃ g, runWhen GateBpf.next GateBpf.KeepsSpacing GateBpf.twoTransactions GateBpf.oneBlocked =
      some g ∧ g.events.map BpfEvent.time = [5000000010, 10] ∧ g.Spaced := by
  have hrun : (runWhen GateBpf.next GateBpf.KeepsSpacing GateBpf.twoTransactions
      GateBpf.oneBlocked).map (fun g => g.events.map BpfEvent.time) =
        some [5000000010, 10] := by decide +kernel
  obtain ⟨g, hg, hevents⟩ := Option.map_eq_some_iff.mp hrun
  exact ⟨g, hg, hevents,
    spaced_of_reachable (System.reachableWhen_runWhen (.init GateBpf.oneBlocked_init) hg)⟩

/-- A process switches to a blocked uid and makes a transaction at once. -/
theorem not_spaced_of_reachable :
    ¬ ∀ g, gateBpf.ReachableWhen GateBpf.BlocksFixed g → g.Spaced := by
  intro h
  have hswitched : gateBpf.ReachableWhen GateBpf.BlocksFixed
      (GateBpf.oneBlocked.uidSwitch 10001 4000 true) :=
    GateBpf.reachable_uidSwitch (.init GateBpf.oneBlocked_init) 10001 4000 true
  have hnot : ¬ GateBpf.KeepsSpacing (GateBpf.oneBlocked.uidSwitch 10001 4000 true)
      (.binderEntry 10001 4000 (some 1)) := by decide +kernel
  obtain ⟨g, hg, hspaced⟩ := GateBpf.exists_not_spaced hswitched hnot
  exact hspaced (h g hg)

end Ningshi
