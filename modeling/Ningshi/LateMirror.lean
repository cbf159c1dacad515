import Ningshi.Engine.Verdict
import Ningshi.Killer

/-!
# `gate.rs`: a launch that the kernel has caught

The kernel map decides which launches are reported; before a kill the mirror and
the identity index are asked again.  A tick installs the index first, then
`set_blocked` puts a uid into the kernel map and after that into the mirror.  No
lock is held across these steps, so events may be queued and handled between any
two of them.

A message is caught while the kernel map has held its uid ever since the message
was queued.  `caught_not_refused_iff` says that the runs in which no caught
message is refused are those in which the mirror is not asked for a uid that is
just being added, and the names are asked for while the last tick blocks the uid.
-/

namespace Ningshi

open Std FiniteMap Transition

/-! ## Watching a run -/

structure Watched where
  killer : Killer
  /-- of the tick that has installed the index -/
  verdicts : List Verdict
  /-- messages whose uid the kernel map has held since they were queued -/
  caught : List QueuedKill
  /-- caught messages that were refused -/
  refused : List QueuedKill

inductive WatchedStep where
  | killer (step : KillerStep)
  /-- a tick installs its index -/
  | tick (vs : List Verdict)

def WatchedStep.toKiller : WatchedStep → Option KillerStep
  -- only a tick installs an index
  | .killer (.setBlockIndex _) => none
  | .killer step => some step
  | .tick vs => some (.setBlockIndex (blockedNames vs))

theorem ne_setBlockIndex_of_toKiller {step step' : KillerStep}
    (h : (WatchedStep.killer step).toKiller = some step') (index : UidMap (List String)) :
    step' ≠ .setBlockIndex index := by
  cases step with
  | setBlockIndex _ => cases h
  | _ =>
      obtain rfl := Option.some.inj h
      simp

/-- The message a step queues. -/
def Killer.queues (k : Killer) : KillerStep → Option QueuedKill
  | .send pid uid => some ⟨k.nextId, pid, uid⟩
  | _ => none

/-- The message the next step of the thread refuses because its uid is not in
the mirror, or has no names in the index. -/
def Killer.refuses (k : Killer) : Option QueuedKill :=
  match k.phase with
  | .checking _ p => if p.msg.uid ∈ k.gate.mirror then none else some p.msg
  | .identifying _ p => if k.gate.identity[p.msg.uid]?.getD [] = [] then some p.msg else none
  | _ => none

namespace Watched

/-- The caught messages a step refuses. -/
def refusedBy (w : Watched) : KillerStep → List QueuedKill
  | .advance _ => (w.killer.refuses.filter fun msg => msg ∈ w.caught).toList
  | _ => []

def next (w : Watched) (label : WatchedStep) : Option Watched :=
  label.toKiller.bind fun step =>
    (w.killer.next step).map fun k =>
      { killer := k
        verdicts :=
          match label with
          | .tick vs => vs
          | .killer _ => w.verdicts
        caught :=
          ((w.killer.queues step).toList ++ w.caught).filter fun msg => msg.uid ∈ k.gate.kernel
        refused := w.refusedBy step ++ w.refused }

structure Initial (w : Watched) : Prop where
  killer : w.killer.Initial
  verdicts : w.verdicts = []
  caught : w.caught = []
  refused : w.refused = []

end Watched

def watchedKiller : System Watched WatchedStep := .ofNext Watched.Initial Watched.next

/-- A refusal is counted, and nothing is signalled. -/
theorem Killer.advance_of_refuses {k k' : Killer} {ans : Answers} {msg : QueuedKill}
    (hrefuses : k.refuses = some msg) (hstep : k.advance ans = some k') :
    k'.killSkipped + k'.identitySkipped = k.killSkipped + k.identitySkipped + 1 ∧
      ∃ i, k'.phase = .polling i := by
  unfold refuses at hrefuses
  unfold advance at hstep
  split at hrefuses
  next i p hphase =>
    split_ifs at hrefuses with hmirror
    have hnotFound : k.gate.mirror.contains p.msg.uid = false := Bool.eq_false_iff.mpr hmirror
    simp only [hphase, hnotFound, Bool.false_eq_true, if_false, Option.some.injEq] at hstep
    subst hstep
    refine ⟨?_, i, rfl⟩
    show k.killSkipped + 1 + k.identitySkipped = _
    omega
  next i p hphase =>
    split_ifs at hrefuses with hnames
    have hother : (identityOk k.gate.identity ans.cmdline p.msg.uid).1 = false := by
      unfold identityOk
      cases hindex : k.gate.identity[p.msg.uid]? with
      | none => rfl
      | some names =>
          rw [hindex, Option.getD_some] at hnames
          simp only [if_pos hnames]
    simp only [hphase, hother, Bool.false_eq_true, if_false, Option.some.injEq] at hstep
    subst hstep
    exact ⟨rfl, i, rfl⟩
  next => cases hrefuses

/-! ## What a step makes of the gate -/

theorem mem_applyBlock {uid u : Uid} {blocked : Bool} {m : UidMap UInt8} :
    u ∈ applyBlock uid blocked m ↔ if uid = u then blocked = true else u ∈ m := by
  unfold applyBlock
  by_cases huid : uid = u
  · cases blocked <;> simp [huid]
  · cases blocked <;> simp [huid]

/-- The gate and the update that is under way, after a step. -/
inductive GateStep (k k' : Killer) : KillerStep → Prop
  | kernel {uid : Uid} {blocked : Bool} (hidle : k.updating = none)
      (hgate : k'.gate = { k.gate with kernel := applyBlock uid blocked k.gate.kernel })
      (hupdating : k'.updating = some (uid, blocked)) : GateStep k k' (.kernel uid blocked)
  | mirror {uid : Uid} {blocked : Bool} (hbegun : k.updating = some (uid, blocked))
      (hgate : k'.gate = { k.gate with mirror := applyBlock uid blocked k.gate.mirror })
      (hupdating : k'.updating = none) : GateStep k k' .mirror
  | index {index : UidMap (List String)} (hgate : k'.gate = k.gate.setBlockIndex index)
      (hupdating : k'.updating = k.updating) : GateStep k k' (.setBlockIndex index)
  | keeps {step : KillerStep} (hindex : ∀ index, step ≠ .setBlockIndex index)
      (hgate : k'.gate = k.gate) (hupdating : k'.updating = k.updating) : GateStep k k' step

theorem gate_advance {k k' : Killer} {ans : Answers} (h : Killer.Advanced k ans k') :
    k'.gate = k.gate ∧ k'.updating = k.updating := by
  cases h <;> exact ⟨rfl, rfl⟩

/-- **What a step does to the gate.** -/
theorem gate_next {k k' : Killer} {step : KillerStep} (hstep : k.next step = some k') :
    GateStep k k' step := by
  cases step with
  | advance ans =>
      obtain ⟨hgate, hupdating⟩ := gate_advance (Killer.advance_cases hstep)
      exact .keeps (by simp) hgate hupdating
  | kernel uid blocked =>
      simp only [Killer.next] at hstep
      split_ifs at hstep with hrefused
      obtain rfl := Option.some.inj hstep
      exact .kernel (Option.not_isSome_iff_eq_none.mp (not_or.mp hrefused).1) rfl rfl
  | mirror =>
      obtain ⟨⟨uid, blocked⟩, hbegun, rfl⟩ := Option.map_eq_some_iff.mp hstep
      exact .mirror hbegun rfl rfl
  | setBlockIndex index =>
      simp only [Killer.next] at hstep
      split_ifs at hstep
      obtain rfl := Option.some.inj hstep
      exact .index rfl rfl
  | wait ms =>
      obtain rfl := Option.some.inj hstep
      exact .keeps (by simp) rfl rfl
  | _ =>
      simp only [Killer.next] at hstep
      split_ifs at hstep
      obtain rfl := Option.some.inj hstep
      exact .keeps (by simp) rfl rfl

/-- The mirror has what the kernel map has, but for the uid being added. -/
structure Behind (k : Killer) : Prop where
  mirrored : ∀ uid ∈ k.gate.kernel, uid ∈ k.gate.mirror ∨ k.updating = some (uid, true)
  removed : ∀ uid, k.updating = some (uid, false) → uid ∉ k.gate.kernel

theorem Behind.of_eq {k k' : Killer} (hk : Behind k) (hgate : k'.gate = k.gate)
    (hupdating : k'.updating = k.updating) : Behind k' := by
  refine ⟨fun uid huid => ?_, fun uid huid => ?_⟩
  · rw [hgate, hupdating]
    exact hk.mirrored uid (hgate ▸ huid)
  · rw [hgate]
    exact hk.removed uid (hupdating ▸ huid)

/-- **Between the halves of an update** the mirror is one uid behind at most. -/
theorem behind_next {k k' : Killer} {step : KillerStep} (hk : Behind k)
    (hstep : k.next step = some k') : Behind k' := by
  cases gate_next hstep with
  | @kernel uid blocked hidle hgate hupdating =>
      have hmirrored (u : Uid) (hu : u ∈ k.gate.kernel) : u ∈ k.gate.mirror := by
        refine (hk.mirrored u hu).resolve_right fun hbegun => ?_
        rw [hidle] at hbegun
        cases hbegun
      refine ⟨fun u hu => ?_, fun u hu => ?_⟩
      · rw [hgate, mem_applyBlock] at hu
        rw [hgate, hupdating]
        split_ifs at hu with heq
        · exact .inr (by rw [heq, hu])
        · exact .inl (hmirrored u hu)
      · rw [hupdating] at hu
        obtain ⟨rfl, rfl⟩ := Prod.mk.inj (Option.some.inj hu)
        rw [hgate, mem_applyBlock, if_pos rfl]
        exact Bool.false_ne_true
  | @mirror uid blocked hbegun hgate hupdating =>
      refine ⟨fun u hu => .inl ?_, fun u hu => ?_⟩
      · rw [hgate] at hu
        rw [hgate, mem_applyBlock]
        split_ifs with heq
        · -- the update that ends here is not a removal
          by_contra hremoves
          rw [heq, Bool.eq_false_iff.mpr hremoves] at hbegun
          exact hk.removed u hbegun hu
        · rcases hk.mirrored u hu with hmirror | hadds
          · exact hmirror
          · rw [hbegun] at hadds
            exact absurd (Prod.mk.inj (Option.some.inj hadds)).1 heq
      · rw [hupdating] at hu
        cases hu
  | index hgate hupdating =>
      refine ⟨fun u hu => ?_, fun u hu => ?_⟩
      · rw [hgate] at hu
        rw [hgate, hupdating]
        exact hk.mirrored u hu
      · rw [hgate]
        exact hk.removed u (hupdating ▸ hu)
  | keeps _ hgate hupdating => exact hk.of_eq hgate hupdating

/-! ## What holds in every run -/

/-- What is known of the messages is right. -/
structure Watched.Tracked (w : Watched) : Prop where
  gate : Behind w.killer
  caught : ∀ msg ∈ w.caught, msg.uid ∈ w.killer.gate.kernel
  index : w.killer.gate.identity = blockedNames w.verdicts

theorem blockedNames_nil : blockedNames [] = ∅ := by decide +kernel

theorem tracked_of_reachable {w : Watched} (hw : watchedKiller.Reachable w) : w.Tracked := by
  refine hw.invariant (fun w hw => ?_) fun w label w' hw _ hstep => ?_
  · have hgate := hw.killer.gate
    refine ⟨⟨fun uid huid => ?_, fun uid huid => ?_⟩, fun msg hmsg => ?_, ?_⟩
    · simp [hgate, Gate.start] at huid
    · simp [hw.killer.updating] at huid
    · simp [hw.caught] at hmsg
    · rw [hgate, hw.verdicts, blockedNames_nil]
      rfl
  · obtain ⟨step, hkiller, hnext⟩ := Option.bind_eq_some_iff.mp hstep
    obtain ⟨k, hk, rfl⟩ := Option.map_eq_some_iff.mp hnext
    refine ⟨behind_next hw.gate hk, fun msg hmsg => ?_, ?_⟩
    · exact of_decide_eq_true (List.mem_filter.mp hmsg).2
    · -- the index is the one of the last tick
      cases label with
      | tick vs =>
          obtain rfl := Option.some.inj hkiller
          cases gate_next hk with
          | index hgate _ => exact congrArg Gate.identity hgate
          | keeps hindex _ _ => exact absurd rfl (hindex _)
      | killer step' =>
          have hindex := ne_setBlockIndex_of_toKiller hkiller
          cases gate_next hk with
          | index => exact absurd rfl (hindex _)
          | kernel _ hgate _ => exact (congrArg Gate.identity hgate).trans hw.index
          | mirror _ hgate _ => exact (congrArg Gate.identity hgate).trans hw.index
          | keeps _ hgate _ => exact (congrArg Gate.identity hgate).trans hw.index

/-! ## Exactly when nothing caught is refused -/

/-- `set_blocked` has put a new uid into the kernel map and not yet into the mirror. -/
def Killer.Adding (k : Killer) (uid : Uid) : Prop :=
  k.updating = some (uid, true) ∧ uid ∉ k.gate.mirror

/-- Some entry blocks the uid, under a key that names a package. -/
def BlocksNamed (vs : List Verdict) (uid : Uid) : Prop :=
  ∃ v ∈ vs, v.uid = uid ∧ v.block = true ∧ (packageOf v.key).isSome

/-- For a caught message, the mirror is asked when its uid is not just being
added, and the index when the last tick blocks the uid. -/
def AsksInTime (w : Watched) : WatchedStep → Prop
  | .killer (.advance _) =>
      match w.killer.phase with
      | .checking _ p => p.msg ∈ w.caught → ¬ w.killer.Adding p.msg.uid
      | .identifying _ p => p.msg ∈ w.caught → BlocksNamed w.verdicts p.msg.uid
      | _ => True
  | _ => True

/-- **What a step refuses**: something caught exactly when it asks too early or
too late. -/
theorem refusedBy_eq_nil_iff {w : Watched} (hw : w.Tracked) {label : WatchedStep}
    {step : KillerStep} (hlabel : label.toKiller = some step) :
    w.refusedBy step = [] ↔ AsksInTime w label := by
  cases label with
  | tick vs =>
      obtain rfl := Option.some.inj hlabel
      exact iff_of_true rfl trivial
  | killer step' =>
      cases step' with
      | advance ans =>
          obtain rfl := Option.some.inj hlabel
          simp only [Watched.refusedBy, AsksInTime, Killer.refuses, Option.toList_eq_nil_iff,
            Option.filter_eq_none_iff, decide_eq_true_eq]
          cases hphase : w.killer.phase with
          | checking i p =>
              have hadding (hcaught : p.msg ∈ w.caught) (hmissing : p.msg.uid ∉ w.killer.gate.mirror) :
                  w.killer.Adding p.msg.uid :=
                ⟨(hw.gate.mirrored _ (hw.caught _ hcaught)).resolve_left hmissing, hmissing⟩
              by_cases hmirror : p.msg.uid ∈ w.killer.gate.mirror
              · simp [hmirror, Killer.Adding]
              · simp only [hmirror, if_false, Option.some.injEq, forall_eq']
                exact ⟨fun h hcaught => absurd hcaught h,
                  fun h hcaught => h hcaught (hadding hcaught hmirror)⟩
          | identifying i p =>
              have hnames := blockedNames_ne_nil_iff w.verdicts p.msg.uid
              rw [← hw.index] at hnames
              by_cases hnone : w.killer.gate.identity[p.msg.uid]?.getD [] = []
              · have hnot : ¬ BlocksNamed w.verdicts p.msg.uid := fun h => hnames.mpr h hnone
                simp [hnone, hnot]
              · have hblocks : BlocksNamed w.verdicts p.msg.uid := hnames.mp hnone
                simp [hnone, hblocks]
          | _ => simp
      | setBlockIndex index => cases hlabel
      | _ =>
          obtain rfl := Option.some.inj hlabel
          exact iff_of_true rfl trivial

/-- **Exactly the runs that ask in time** refuse nothing that the kernel has
caught. -/
theorem caught_not_refused_iff {w : Watched} :
    watchedKiller.ReachableWhen AsksInTime w ↔ watchedKiller.Reachable w ∧ w.refused = [] := by
  refine System.reachableWhen_iff_log_eq_nil (fun w (hw : w.Initial) => hw.refused)
    fun w label w' hw hstep => ?_
  obtain ⟨step, hlabel, hnext⟩ := Option.bind_eq_some_iff.mp hstep
  obtain ⟨k, -, rfl⟩ := Option.map_eq_some_iff.mp hnext
  exact ⟨w.refusedBy step, rfl, refusedBy_eq_nil_iff (tracked_of_reachable hw) hlabel⟩

/-! ## Runs -/

def Watched.start : Watched := ⟨oneTarget, [], [], []⟩

theorem watchedStart_init : watchedKiller.init .start := ⟨oneTarget_init, rfl, rfl, rfl⟩

/-- A tick blocks the uid and has put it into the kernel map when its process is
reported; the killer gets to the process before the mirror is updated. -/
def earlyLook : List WatchedStep :=
  [.tick [⟨"0:com.game", 10001, true⟩], .killer (.kernel 10001 true), .killer (.send 4000 10001)] ++
    List.replicate 6 (.killer (.advance foreground)) ++ [.killer .mirror]

/-- **A launch slips through**: it is taken for one that is no longer blocked. -/
theorem not_caught_not_refused :
    ¬ ∀ w, watchedKiller.Reachable w → w.refused = [] := by
  intro h
  have hrefused : (runFrom Watched.next earlyLook .start).map
      (fun w => (w.refused, w.killer.killSkipped)) = some ([⟨0, 4000, 10001⟩], 1) := by
    decide +kernel
  obtain ⟨w, hw, hend⟩ := Option.map_eq_some_iff.mp hrefused
  have hnone := h w (System.reachable_runFrom (.init watchedStart_init) hw)
  rw [hnone] at hend
  cases hend

/-- A launch right after the update is killed. -/
example : (runFrom Watched.next
    ([.tick [⟨"0:com.game", 10001, true⟩], .killer (.kernel 10001 true), .killer .mirror,
      .killer (.send 4000 10001)] ++ List.replicate 8 (.killer (.advance foreground))) .start).any
    (fun w => w.caught = [⟨0, 4000, 10001⟩] ∧ w.refused = [] ∧
      .signalled ⟨0, 4000, 10001⟩ 3 true ∈ w.killer.trace) = true := by decide +kernel

end Ningshi
